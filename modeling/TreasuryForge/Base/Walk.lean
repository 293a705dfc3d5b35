/-
# `Base.Walk` — a quantity taken off levels in their order

A walk takes what is wanted off levels of a price and a size, until no more than a tolerance is
wanted.  It comes within the tolerance of what is wanted or there (`le_filled`), at a cost between
the prices (`le_cost`, `cost_le`); and where the prices rise, what a longer walk takes more costs
no less than anything that the shorter one took (`longer_costs`).
-/
import Mathlib.Algebra.Order.BigOperators.Group.List
import Mathlib.Algebra.Order.Field.Basic
import Mathlib.Tactic.Linarith
import Mathlib.Tactic.Ring

namespace Walk

variable {K : Type} [Field K] [LinearOrder K]

/-- The cost and the amount of what is taken off levels of a price and a size. -/
def walk (tol : K) : List (K × K) → K → K × K
  | [], _ => (0, 0)
  | (px, sz) :: rest, want =>
      let take := min want sz
      if want - take ≤ tol then (take * px, take)
      else
        let r := walk tol rest (want - take)
        (take * px + r.1, take + r.2)

def depth (levels : List (K × K)) : K := (levels.map Prod.snd).sum

/-- Nothing is offered in a negative amount. -/
def Offers (levels : List (K × K)) : Prop := ∀ level ∈ levels, 0 ≤ level.2

section Cons
variable {tol px sz want : K} {rest : List (K × K)}

theorem walk_last (h : want - min want sz ≤ tol) :
    walk tol ((px, sz) :: rest) want = (min want sz * px, min want sz) := if_pos h

theorem walk_next (h : ¬ want - min want sz ≤ tol) :
    walk tol ((px, sz) :: rest) want =
      (min want sz * px + (walk tol rest (want - min want sz)).1,
        min want sz + (walk tol rest (want - min want sz)).2) := if_neg h

/-- A walk goes on only past a level that it has taken whole. -/
theorem min_of_next (htol : 0 ≤ tol) (h : ¬ want - min want sz ≤ tol) : min want sz = sz := by
  rcases min_choice want sz with hwant | hsz
  · rw [hwant, sub_self] at h
    exact absurd htol h
  · exact hsz

end Cons

variable [IsStrictOrderedRing K] {tol want want' : K} {levels : List (K × K)}

theorem depth_nonneg (h : Offers levels) : 0 ≤ depth levels := by
  refine List.sum_nonneg fun sz hsz => ?_
  obtain ⟨level, hlevel, rfl⟩ := List.mem_map.mp hsz
  exact h level hlevel

theorem filled_nonneg (h : Offers levels) (hwant : 0 ≤ want) :
    0 ≤ (walk tol levels want).2 := by
  induction levels generalizing want with
  | nil => exact le_rfl
  | cons level rest ih =>
      obtain ⟨px, sz⟩ := level
      obtain ⟨hsz, hrest⟩ := List.forall_mem_cons.mp h
      have htake : 0 ≤ min want sz := le_min hwant hsz
      by_cases hlast : want - min want sz ≤ tol
      · rw [walk_last hlast]
        exact htake
      · rw [walk_next hlast]
        exact add_nonneg htake (ih hrest (sub_nonneg.mpr (min_le_left want sz)))

/-- No more is taken than was wanted, or than is there. -/
theorem filled_le (h : Offers levels) (hwant : 0 ≤ want) :
    (walk tol levels want).2 ≤ want ∧ (walk tol levels want).2 ≤ depth levels := by
  induction levels generalizing want with
  | nil => exact ⟨hwant, le_rfl⟩
  | cons level rest ih =>
      obtain ⟨px, sz⟩ := level
      obtain ⟨hsz, hrest⟩ := List.forall_mem_cons.mp h
      have hdepth : depth ((px, sz) :: rest) = sz + depth rest := rfl
      by_cases hlast : want - min want sz ≤ tol
      · rw [walk_last hlast, hdepth]
        exact ⟨min_le_left want sz, (min_le_right want sz).trans
          (le_add_of_nonneg_right (depth_nonneg hrest))⟩
      · obtain ⟨hleft, hdeep⟩ := ih hrest (sub_nonneg.mpr (min_le_left want sz))
        rw [walk_next hlast, hdepth]
        exact ⟨by linarith, add_le_add (min_le_right want sz) hdeep⟩

/-- What is wanted or there is taken, but for the tolerance. -/
theorem le_filled (htol : 0 ≤ tol) : min want (depth levels) ≤ (walk tol levels want).2 + tol := by
  induction levels generalizing want with
  | nil => exact (min_le_right want 0).trans (by simpa [walk] using htol)
  | cons level rest ih =>
      obtain ⟨px, sz⟩ := level
      have hdepth : depth ((px, sz) :: rest) = sz + depth rest := rfl
      by_cases hlast : want - min want sz ≤ tol
      · rw [walk_last hlast]
        exact (min_le_left want _).trans (by linarith)
      · have hshift : min want (sz + depth rest) = sz + min (want - sz) (depth rest) := by
          rw [← min_add_add_left, add_sub_cancel]
        have hrest := @ih (want - min want sz)
        rw [min_of_next htol hlast] at hrest
        rw [walk_next hlast, hdepth, hshift, min_of_next htol hlast]
        linarith

theorem filled_pos (htol : 0 ≤ tol) (h : Offers levels) (hwant : tol < want)
    (hdepth : 0 < depth levels) : 0 < (walk tol levels want).2 := by
  induction levels generalizing want with
  | nil => exact absurd hdepth (lt_irrefl 0)
  | cons level rest ih =>
      obtain ⟨px, sz⟩ := level
      obtain ⟨hsz, hrest⟩ := List.forall_mem_cons.mp h
      have hpos : 0 < want := htol.trans_lt hwant
      rcases hsz.eq_or_lt with hempty | hfull
      · -- an empty level is passed by
        obtain rfl : 0 = sz := hempty
        have hnext : ¬ want - min want 0 ≤ tol := by
          rw [min_eq_right hpos.le, sub_zero]
          exact not_le.mpr hwant
        have hdeep : 0 < depth rest := by
          have hsum : depth ((px, 0) :: rest) = 0 + depth rest := rfl
          rwa [hsum, zero_add] at hdepth
        rw [walk_next hnext]
        exact add_pos_of_nonneg_of_pos (le_min hpos.le le_rfl) (ih hrest (not_le.mp hnext) hdeep)
      · have htake : 0 < min want sz := lt_min hpos hfull
        by_cases hlast : want - min want sz ≤ tol
        · rw [walk_last hlast]
          exact htake
        · rw [walk_next hlast]
          exact add_pos_of_pos_of_nonneg htake
            (filled_nonneg hrest (sub_nonneg.mpr (min_le_left want sz)))

/-- No unit costs less than the lowest price. -/
theorem le_cost (h : Offers levels) (hwant : 0 ≤ want) {lo : K}
    (hlo : ∀ level ∈ levels, lo ≤ level.1) :
    lo * (walk tol levels want).2 ≤ (walk tol levels want).1 := by
  induction levels generalizing want with
  | nil => exact (mul_zero lo).le
  | cons level rest ih =>
      obtain ⟨px, sz⟩ := level
      obtain ⟨hsz, hrest⟩ := List.forall_mem_cons.mp h
      obtain ⟨hfirst, hlo⟩ := List.forall_mem_cons.mp hlo
      have htake : lo * min want sz ≤ min want sz * px := by
        rw [mul_comm lo]
        exact mul_le_mul_of_nonneg_left hfirst (le_min hwant hsz)
      by_cases hlast : want - min want sz ≤ tol
      · rw [walk_last hlast]
        exact htake
      · rw [walk_next hlast, mul_add]
        exact add_le_add htake (ih hrest (sub_nonneg.mpr (min_le_left want sz)) hlo)

/-- The levels with their prices below zero. -/
def flip (levels : List (K × K)) : List (K × K) := levels.map fun level => (-level.1, level.2)

omit [IsStrictOrderedRing K] in
theorem walk_flip : walk tol (flip levels) want =
    (-(walk tol levels want).1, (walk tol levels want).2) := by
  induction levels generalizing want with
  | nil => simp [flip, walk]
  | cons level rest ih =>
      obtain ⟨px, sz⟩ := level
      have hflip : flip ((px, sz) :: rest) = (-px, sz) :: flip rest := rfl
      by_cases hlast : want - min want sz ≤ tol
      · rw [hflip, walk_last hlast, walk_last hlast, mul_neg]
      · rw [hflip, walk_next hlast, walk_next hlast, ih, mul_neg, neg_add]

omit [IsStrictOrderedRing K] in
theorem offers_flip (h : Offers levels) : Offers (flip levels) := by
  intro level hlevel
  obtain ⟨level', hlevel', rfl⟩ := List.mem_map.mp hlevel
  exact h level' hlevel'

/-- No unit costs more than the highest price. -/
theorem cost_le (h : Offers levels) (hwant : 0 ≤ want) {hi : K}
    (hhi : ∀ level ∈ levels, level.1 ≤ hi) :
    (walk tol levels want).1 ≤ hi * (walk tol levels want).2 := by
  have hlo : ∀ level ∈ flip levels, -hi ≤ level.1 := by
    intro level hlevel
    obtain ⟨level', hlevel', rfl⟩ := List.mem_map.mp hlevel
    exact neg_le_neg (hhi level' hlevel')
  have hflip : -hi * (walk tol (flip levels) want).2 ≤ (walk tol (flip levels) want).1 :=
    le_cost (offers_flip h) hwant hlo
  rw [walk_flip, neg_mul] at hflip
  exact neg_le_neg_iff.mp hflip

/-- Two walks over rising prices: some price is at least that of all units of the shorter one, and
at most that of all units that the longer one takes more. -/
theorem longer_costs (htol : 0 ≤ tol) (h : Offers levels) (hwant : 0 ≤ want) (hle : want ≤ want')
    (hrising : levels.Pairwise fun a b => a.1 ≤ b.1) {lo : K}
    (hlo : ∀ level ∈ levels, lo ≤ level.1) :
    ∃ px, lo ≤ px ∧ (walk tol levels want).1 ≤ px * (walk tol levels want).2 ∧
      (walk tol levels want).2 ≤ (walk tol levels want').2 ∧
      px * ((walk tol levels want').2 - (walk tol levels want).2) ≤
        (walk tol levels want').1 - (walk tol levels want).1 := by
  induction levels generalizing want want' lo with
  | nil => exact ⟨lo, le_rfl, by simp [walk], le_rfl, by simp [walk]⟩
  | cons level rest ih =>
      obtain ⟨px, sz⟩ := level
      obtain ⟨hsz, hrest⟩ := List.forall_mem_cons.mp h
      obtain ⟨hfirst, hrising⟩ := List.pairwise_cons.mp hrising
      have hlo₁ : lo ≤ px := (List.forall_mem_cons.mp hlo).1
      have hwant' : 0 ≤ want' := hwant.trans hle
      have htake : min want sz ≤ min want' sz := min_le_min_right sz hle
      by_cases hlast : want - min want sz ≤ tol
      · -- the shorter walk ends on this level, and the other one goes on from here at best
        refine ⟨px, hlo₁, ?_⟩
        rw [walk_last hlast]
        by_cases hlast' : want' - min want' sz ≤ tol
        · rw [walk_last hlast']
          exact ⟨(mul_comm _ _).le, htake, by linarith [mul_comm px (min want' sz - min want sz)]⟩
        · have hleft : 0 ≤ want' - min want' sz := sub_nonneg.mpr (min_le_left want' sz)
          have hmore : 0 ≤ (walk tol rest (want' - min want' sz)).2 := filled_nonneg hrest hleft
          have hcost : px * (walk tol rest (want' - min want' sz)).2 ≤
              (walk tol rest (want' - min want' sz)).1 := le_cost hrest hleft hfirst
          rw [walk_next hlast']
          exact ⟨(mul_comm _ _).le, by linarith, by linarith⟩
      · have hwhole := min_of_next htol hlast
        have hwhole' : min want' sz = sz := by
          rw [min_eq_right ((min_eq_right_iff.mp hwhole).trans hle)]
        have hlast' : ¬ want' - min want' sz ≤ tol := by
          rw [hwhole']
          rw [hwhole] at hlast
          linarith
        obtain ⟨p, hp, hcost, hfilled, hmore⟩ :=
          ih hrest (sub_nonneg.mpr (min_le_left want sz))
            (show want - min want sz ≤ want' - min want' sz by rw [hwhole, hwhole']; linarith)
            hrising hfirst
        refine ⟨p, hlo₁.trans hp, ?_⟩
        rw [walk_next hlast, walk_next hlast', hwhole, hwhole'] at *
        have hpx : sz * px ≤ p * sz := by
          rw [mul_comm p]
          exact mul_le_mul_of_nonneg_left hp hsz
        exact ⟨by linarith, by linarith, by linarith⟩

/-- The average does not fall with what is added at no lower a price. -/
theorem average_le {cost filled cost' filled' px : K} (hpos : 0 < filled)
    (hcost : cost ≤ px * filled) (hfilled : filled ≤ filled')
    (hmore : px * (filled' - filled) ≤ cost' - cost) : cost / filled ≤ cost' / filled' := by
  rw [div_le_div_iff₀ hpos (hpos.trans_le hfilled)]
  have hadded := mul_le_mul_of_nonneg_right hcost (sub_nonneg.mpr hfilled)
  calc cost * filled'
      = cost * filled + cost * (filled' - filled) := by ring
    _ ≤ cost * filled + px * filled * (filled' - filled) := by linarith
    _ = cost * filled + filled * (px * (filled' - filled)) := by ring
    _ ≤ cost * filled + filled * (cost' - cost) := by
        linarith [mul_le_mul_of_nonneg_left hmore hpos.le]
    _ = cost' * filled := by ring

end Walk

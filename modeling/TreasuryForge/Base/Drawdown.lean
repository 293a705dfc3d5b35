/-
# `Base.Drawdown` — how deep a compounding path falls below its peak

A path is a list of growth factors.  `fall x fs` goes along it with `x`, what the value is of its
peak so far, and keeps the deepest fall; a factor that is not positive ends the path at a fall of
one.  `track` is the loop that computes it.  From the peak itself it is the deepest of all
stretches of the path (`le_fall_iff`), and worse factors make it deeper (`fall_le_fall`).
-/
import Mathlib.Algebra.Order.Field.Basic
import Mathlib.Algebra.BigOperators.Group.List.Basic
import Mathlib.Data.List.Infix
import Mathlib.Tactic.Linarith

namespace Drawdown

variable {K : Type} [Field K] [LinearOrder K]

/-- The deepest fall below the peak, from a value that is `x` times its peak. -/
def fall (x : K) : List K → K
  | [] => 0
  | f :: fs => if f ≤ 0 then 1 else max (1 - min 1 (x * f)) (fall (min 1 (x * f)) fs)

@[simp] theorem fall_nil (x : K) : fall x [] = 0 := rfl

theorem fall_ruin {f : K} (x : K) (fs : List K) (hf : f ≤ 0) : fall x (f :: fs) = 1 := if_pos hf

theorem fall_cons {f : K} (x : K) (fs : List K) (hf : 0 < f) :
    fall x (f :: fs) = max (1 - min 1 (x * f)) (fall (min 1 (x * f)) fs) :=
  if_neg (not_le.mpr hf)

/-- A path with a factor that is not positive falls all the way. -/
theorem one_le_fall {x f : K} {fs : List K} (hmem : f ∈ fs) (hf : f ≤ 0) : 1 ≤ fall x fs := by
  induction fs generalizing x with
  | nil => cases hmem
  | cons g fs ih =>
      rcases le_or_gt g 0 with hg | hg
      · rw [fall_ruin x fs hg]
      · rw [fall_cons x fs hg]
        rcases List.mem_cons.mp hmem with rfl | hmem
        · exact absurd hf (not_le.mpr hg)
        · exact le_max_of_le_right (ih hmem)

variable [IsStrictOrderedRing K]

theorem fall_nonneg (x : K) (fs : List K) : 0 ≤ fall x fs := by
  cases fs with
  | nil => exact le_rfl
  | cons f fs =>
      rcases le_or_gt f 0 with hf | hf
      · rw [fall_ruin x fs hf]
        exact zero_le_one
      · rw [fall_cons x fs hf]
        exact le_max_of_le_left (sub_nonneg.mpr (min_le_left 1 _))

theorem fall_le_one {x : K} (hx : 0 ≤ x) (fs : List K) : fall x fs ≤ 1 := by
  induction fs generalizing x with
  | nil => exact zero_le_one
  | cons f fs ih =>
      rcases le_or_gt f 0 with hf | hf
      · rw [fall_ruin x fs hf]
      · have hmin : 0 ≤ min 1 (x * f) := le_min zero_le_one (mul_nonneg hx hf.le)
        rw [fall_cons x fs hf]
        exact max_le (by linarith) (ih hmin)

/-- Worse factors, from no better a value, make a deeper fall. -/
theorem fall_le_fall {x y : K} {fs gs : List K} (hx : 0 ≤ x) (hxy : x ≤ y)
    (h : List.Forall₂ (· ≤ ·) fs gs) : fall y gs ≤ fall x fs := by
  induction h generalizing x y with
  | nil => exact le_rfl
  | @cons f g fs gs hfg _ ih =>
      rcases le_or_gt f 0 with hf | hf
      · rw [fall_ruin x fs hf]
        exact fall_le_one (hx.trans hxy) _
      · have hg : 0 < g := hf.trans_le hfg
        have hstep : min 1 (x * f) ≤ min 1 (y * g) :=
          min_le_min le_rfl (mul_le_mul hxy hfg hf.le (hx.trans hxy))
        rw [fall_cons x fs hf, fall_cons y gs hg]
        exact max_le_max (by linarith) (ih (le_min zero_le_one (mul_nonneg hx hf.le)) hstep)

/-- One step of a value, a positive one, and of its peak. -/
theorem level_step {value peak f : K} (hpeak : 0 < peak) :
    value * f / max peak (value * f) = min 1 (value / peak * f) := by
  rcases le_total peak (value * f) with h | h
  · have hpos : 0 < value * f := hpeak.trans_le h
    have hone : 1 ≤ value / peak * f := by
      rw [div_mul_eq_mul_div]
      exact (one_le_div hpeak).mpr h
    rw [max_eq_right h, min_eq_left hone, div_self hpos.ne']
  · have hone : value / peak * f ≤ 1 := by
      rw [div_mul_eq_mul_div]
      exact (div_le_one hpeak).mpr h
    rw [max_eq_left h, min_eq_right hone, div_mul_eq_mul_div]

/-! ## The loop -/

/-- The loop that keeps the value, its peak and the deepest fall below it. -/
def track (value peak worst : K) : List K → K
  | [] => worst
  | f :: fs =>
      track (value * f) (max peak (value * f)) (max worst (1 - value * f / max peak (value * f))) fs

theorem track_eq {fs : List K} (hfs : ∀ f ∈ fs, 0 < f) {value peak worst : K} (hvalue : 0 < value)
    (hpeak : 0 < peak) (hworst : 0 ≤ worst) :
    track value peak worst fs = max worst (fall (value / peak) fs) := by
  induction fs generalizing value peak worst with
  | nil =>
      rw [fall_nil, max_eq_left hworst]
      rfl
  | cons f fs ih =>
      have hf : 0 < f := hfs f List.mem_cons_self
      have hrest : ∀ g ∈ fs, 0 < g := fun g hg => hfs g (List.mem_cons_of_mem f hg)
      rw [track, ih hrest (mul_pos hvalue hf) (lt_max_of_lt_left hpeak)
        (le_max_of_le_left hworst), level_step hpeak, fall_cons _ fs hf, max_assoc]

/-! ## Stretches of a path -/

theorem prod_pos {fs : List K} (h : ∀ f ∈ fs, 0 < f) : 0 < fs.prod := by
  induction fs with
  | nil => exact zero_lt_one
  | cons f fs ih =>
      rw [List.prod_cons]
      exact mul_pos (h f List.mem_cons_self) (ih fun g hg => h g (List.mem_cons_of_mem f hg))

/-- The deepest fall is that of a stretch of the path, or of a beginning of it that goes on from
the fall before it. -/
theorem le_max_fall_iff {x y : K} {fs : List K} (hx : 0 < x) (hx1 : x ≤ 1)
    (hfs : ∀ f ∈ fs, 0 < f) :
    y ≤ max (1 - x) (fall x fs) ↔
      (∃ p, p <+: fs ∧ y ≤ 1 - x * p.prod) ∨ ∃ q, q <:+: fs ∧ y ≤ 1 - q.prod := by
  induction fs generalizing x with
  | nil =>
      rw [fall_nil, max_eq_left (sub_nonneg.mpr hx1)]
      constructor
      · intro hy
        exact Or.inl ⟨[], List.nil_prefix, by rwa [List.prod_nil, mul_one]⟩
      · rintro (⟨p, hp, hy⟩ | ⟨q, hq, hy⟩)
        · rwa [List.prefix_nil.mp hp, List.prod_nil, mul_one] at hy
        · rw [List.infix_nil.mp hq, List.prod_nil, sub_self] at hy
          exact hy.trans (sub_nonneg.mpr hx1)
  | cons f fs ih =>
      have hf : 0 < f := hfs f List.mem_cons_self
      have hrest : ∀ g ∈ fs, 0 < g := fun g hg => hfs g (List.mem_cons_of_mem f hg)
      have hmin : 0 < min 1 (x * f) := lt_min zero_lt_one (mul_pos hx hf)
      rw [fall_cons x fs hf, le_max_iff, ih hmin (min_le_left 1 _) hrest]
      constructor
      · rintro (hy | ⟨p, hp, hy⟩ | ⟨q, hq, hy⟩)
        · exact Or.inl ⟨[], List.nil_prefix, by rwa [List.prod_nil, mul_one]⟩
        · -- a peak on this very step begins a stretch, else the beginning goes on
          rcases min_cases 1 (x * f) with ⟨heq, -⟩ | ⟨heq, -⟩
          · rw [heq, one_mul] at hy
            exact Or.inr ⟨p, (hp.isInfix).trans (List.suffix_cons f fs).isInfix, hy⟩
          · rw [heq, mul_assoc] at hy
            refine Or.inl ⟨f :: p, List.prefix_cons_inj f |>.mpr hp, ?_⟩
            rwa [List.prod_cons]
        · exact Or.inr ⟨q, hq.trans (List.suffix_cons f fs).isInfix, hy⟩
      · rintro (⟨p, hp, hy⟩ | ⟨q, hq, hy⟩)
        · rcases List.prefix_cons_iff.mp hp with rfl | ⟨t, rfl, ht⟩
          · left
            rwa [List.prod_nil, mul_one] at hy
          · have hprod : 0 < t.prod := prod_pos fun g hg => hrest g (ht.subset hg)
            refine Or.inr (Or.inl ⟨t, ht, hy.trans ?_⟩)
            rw [List.prod_cons, ← mul_assoc]
            have hle := mul_le_mul_of_nonneg_right (min_le_right 1 (x * f)) hprod.le
            linarith
        · rcases List.infix_cons_iff.mp hq with hq | hq
          · rcases List.prefix_cons_iff.mp hq with rfl | ⟨t, rfl, ht⟩
            · left
              rw [List.prod_nil, sub_self] at hy
              exact hy.trans (sub_nonneg.mpr hx1)
            · have hprod : 0 < t.prod := prod_pos fun g hg => hrest g (ht.subset hg)
              refine Or.inr (Or.inl ⟨t, ht, hy.trans ?_⟩)
              rw [List.prod_cons]
              have hxf : x * f ≤ f := mul_le_of_le_one_left hf.le hx1
              have hle := mul_le_mul_of_nonneg_right ((min_le_right 1 (x * f)).trans hxf) hprod.le
              linarith
          · exact Or.inr (Or.inr ⟨q, hq, hy⟩)

/-- From the peak, the deepest fall is that of the worst stretch of the path. -/
theorem le_fall_iff {y : K} {fs : List K} (hfs : ∀ f ∈ fs, 0 < f) :
    y ≤ fall 1 fs ↔ ∃ q, q <:+: fs ∧ y ≤ 1 - q.prod := by
  have h := le_max_fall_iff (y := y) zero_lt_one le_rfl hfs
  rw [sub_self, max_eq_right (fall_nonneg 1 fs)] at h
  rw [h]
  constructor
  · rintro (⟨p, hp, hy⟩ | hq)
    · rw [one_mul] at hy
      exact ⟨p, hp.isInfix, hy⟩
    · exact hq
  · exact Or.inr

theorem fall_le_iff {z : K} {fs : List K} (hfs : ∀ f ∈ fs, 0 < f) :
    fall 1 fs ≤ z ↔ ∀ q, q <:+: fs → 1 - q.prod ≤ z := by
  constructor
  · intro hz q hq
    exact ((le_fall_iff hfs).mpr ⟨q, hq, le_rfl⟩).trans hz
  · intro hall
    obtain ⟨q, hq, hle⟩ := (le_fall_iff hfs).mp le_rfl
    exact hle.trans (hall q hq)

/-- The first factor adds nothing to the deepest fall exactly when every beginning of the path
falls no deeper than some stretch after that factor. -/
theorem fall_cons_eq_iff {f : K} {fs : List K} (hf : 0 < f) (hfs : ∀ g ∈ fs, 0 < g) :
    fall 1 fs = fall 1 (f :: fs) ↔ ∀ p, p <+: f :: fs → ∃ q, q <:+: fs ∧ q.prod ≤ p.prod := by
  have hall : ∀ g ∈ f :: fs, 0 < g := by
    intro g hg
    rcases List.mem_cons.mp hg with rfl | hg
    · exact hf
    · exact hfs g hg
  have hle : fall 1 fs ≤ fall 1 (f :: fs) := by
    rw [fall_le_iff hfs]
    intro q hq
    exact (le_fall_iff hall).mpr ⟨q, hq.trans (List.suffix_cons f fs).isInfix, le_rfl⟩
  constructor
  · intro heq p hp
    have hfall : 1 - p.prod ≤ fall 1 fs := by
      rw [heq]
      exact (le_fall_iff hall).mpr ⟨p, hp.isInfix, le_rfl⟩
    obtain ⟨q, hq, hpq⟩ := (le_fall_iff hfs).mp hfall
    exact ⟨q, hq, by linarith⟩
  · intro hcover
    refine hle.antisymm ((fall_le_iff hall).mpr ?_)
    intro q hq
    rcases List.infix_cons_iff.mp hq with hp | hq
    · obtain ⟨t, ht, htq⟩ := hcover q hp
      exact (le_fall_iff hfs).mpr ⟨t, ht, by linarith⟩
    · exact (le_fall_iff hfs).mpr ⟨q, hq, le_rfl⟩

end Drawdown

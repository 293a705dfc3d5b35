/-
# `Live.HardStop` — what the hard stop of the scalp rule stops

`simulate_exit` of `signals/momentum.py` fills at the hard stop only where the stop is not above
the trailing level.  Before the peak has lifted the trail that far, a wide trail hides the stop.
`hardStop_of_covered` says on which series the stop is hard, with levels and returns rounded in
whatever way keeps order; without rounding it is hard on these only.
-/
import TreasuryForge.Live.Momentum

namespace TreasuryForge

variable {ρ : RoundingMode ℚ} {entry peak : ℚ} {p : MomentumParams} {bars : List Bar} {bar : Bar}
  {k : ℕ}

/-- The backtest enters at positive prices only. -/
theorem entry_pos {prev2 prev : ℚ} (h : entryOk prev2 prev entry p = true)
    (henter : -1 < p.enter1m) : 0 < entry := by
  unfold entryOk at h
  split at h
  · cases h
  · next hpos =>
      obtain ⟨-, hprev⟩ := not_or.mp hpos
      have hjump : p.enter1m ≤ entry / prev - 1 := (of_decide_eq_true h).1
      have hratio : 0 < entry / prev := by linarith
      rw [← div_mul_cancel₀ entry (not_le.mp hprev).ne']
      exact mul_pos hratio (not_le.mp hprev)

/-! ## The levels -/

/-- The highest of the entry and the highs of the first `j` bars. -/
def peakAt (peak : ℚ) (bars : List Bar) (j : ℕ) : ℚ := ((bars.take j).map (·.high)).foldl max peak

/-- The trailing level that bar `j` is checked against. -/
def trailLevelAt (ρ : RoundingMode ℚ) (peak : ℚ) (p : MomentumParams) (bars : List Bar) (j : ℕ) :
    ℚ :=
  trailLevel ρ (peakAt peak bars j) p

@[simp] theorem peakAt_zero : peakAt peak bars 0 = peak := by
  rw [peakAt, List.take_zero, List.map_nil, List.foldl_nil]

@[simp] theorem peakAt_succ (j : ℕ) :
    peakAt peak (bar :: bars) (j + 1) = peakAt (max peak bar.high) bars j := by
  rw [peakAt, peakAt, List.take_succ_cons, List.map_cons, List.foldl_cons]

theorem trailLevelAt_zero : trailLevelAt ρ peak p bars 0 = trailLevel ρ peak p := by
  rw [trailLevelAt, peakAt_zero]

theorem trailLevelAt_succ (j : ℕ) :
    trailLevelAt ρ peak p (bar :: bars) (j + 1) = trailLevelAt ρ (max peak bar.high) p bars j := by
  rw [trailLevelAt, trailLevelAt, peakAt_succ]

theorem trailLevelAt_take {n j : ℕ} (h : j ≤ n) :
    trailLevelAt ρ peak p (bars.take n) j = trailLevelAt ρ peak p bars j := by
  rw [trailLevelAt, trailLevelAt, peakAt, peakAt, List.take_take, min_eq_left h]

theorem le_peakAt (peak : ℚ) (bars : List Bar) (j : ℕ) : peak ≤ peakAt peak bars j := by
  induction j generalizing peak bars with
  | zero => rw [peakAt_zero]
  | succ j ih =>
      cases bars with
      | nil => exact le_rfl
      | cons bar bars =>
          rw [peakAt_succ]
          exact (le_max_left peak bar.high).trans (ih (max peak bar.high) bars)

/-- The trail never falls. -/
theorem le_trailLevelAt (htrail : p.trailFrac < 1) (j : ℕ) :
    trailLevel ρ peak p ≤ trailLevelAt ρ peak p bars j :=
  ρ.mul_le_mul_right (ρ.nonneg (by linarith)) (le_peakAt peak bars j)

/-! ## The loop -/

/-- How many bars are held when the loop leaves bars `k, k + 1, …`, or runs out of them. -/
def exitEnd (ρ : RoundingMode ℚ) (entry : ℚ) (p : MomentumParams) (peak : ℚ) (k : ℕ)
    (bars : List Bar) : ℕ :=
  match exitLoop ρ entry p peak k bars with
  | some (held, _) => held
  | none => k + bars.length

/-- No bar at or below the stop is held past, and nothing closes below the stop. -/
structure LoopStops (ρ : RoundingMode ℚ) (entry : ℚ) (p : MomentumParams) (peak : ℚ) (k : ℕ)
    (bars : List Bar) : Prop where
  leaves : ∀ j bar, bars[j]? = some bar → bar.low ≤ stopLevel ρ entry p →
    exitEnd ρ entry p peak k bars ≤ k + j + 1
  floor : ∀ held gross, exitLoop ρ entry p peak k bars = some (held, gross) → -p.stopFrac ≤ gross

/-- Where a bar gets down to the stop, the trail is not below the stop; but for a last bar that
the trail does not reach, where the holding ends anyway. -/
def TrailCovers (ρ : RoundingMode ℚ) (entry : ℚ) (p : MomentumParams) (peak : ℚ)
    (bars : List Bar) : Prop :=
  ∀ j bar, bars[j]? = some bar → bar.low ≤ stopLevel ρ entry p →
    stopLevel ρ entry p ≤ trailLevelAt ρ peak p bars j ∨
      (j + 1 = bars.length ∧ trailLevelAt ρ peak p bars j < bar.low)

/-- A bar between the stop and the trail has not lost more than the stop, as the return is
computed. -/
def LossCovers (ρ : RoundingMode ℚ) (entry : ℚ) (p : MomentumParams) (peak : ℚ)
    (bars : List Bar) : Prop :=
  ∀ j bar, bars[j]? = some bar → stopLevel ρ entry p < bar.low →
    bar.low ≤ trailLevelAt ρ peak p bars j → -p.stopFrac ≤ ρ.simpleReturn bar.low entry

/-- At a bar the loop stops out, trails out, or goes on. -/
theorem exitLoop_cases (ρ : RoundingMode ℚ) (entry : ℚ) (p : MomentumParams) (peak : ℚ) (k : ℕ)
    (bar : Bar) (bars : List Bar) :
    (stopLevel ρ entry p ≤ trailLevel ρ peak p ∧
      exitLoop ρ entry p peak k (bar :: bars) = some (k + 1, -p.stopFrac)) ∨
    (bar.low ≤ trailLevel ρ peak p ∧
      (bar.low ≤ stopLevel ρ entry p → trailLevel ρ peak p < stopLevel ρ entry p) ∧
      exitLoop ρ entry p peak k (bar :: bars) =
        some (k + 1, ρ.simpleReturn (trailLevel ρ peak p) entry)) ∨
    (trailLevel ρ peak p < bar.low ∧
      exitLoop ρ entry p peak k (bar :: bars) =
        exitLoop ρ entry p (max peak bar.high) (k + 1) bars) := by
  by_cases hstop : bar.low ≤ stopLevel ρ entry p ∧ stopLevel ρ entry p ≤ trailLevel ρ peak p
  · exact Or.inl ⟨hstop.2, if_pos hstop⟩
  · have hloop : exitLoop ρ entry p peak k (bar :: bars) =
        if bar.low ≤ trailLevel ρ peak p then
          some (k + 1, ρ.simpleReturn (trailLevel ρ peak p) entry)
        else exitLoop ρ entry p (max peak bar.high) (k + 1) bars := if_neg hstop
    right
    by_cases htrail : bar.low ≤ trailLevel ρ peak p
    · rw [if_pos htrail] at hloop
      exact Or.inl ⟨htrail, fun hlow => not_le.mp fun hcover => hstop ⟨hlow, hcover⟩, hloop⟩
    · rw [if_neg htrail] at hloop
      exact Or.inr ⟨not_le.mp htrail, hloop⟩

theorem exitEnd_of_exit {held : ℕ} {gross : ℚ}
    (h : exitLoop ρ entry p peak k bars = some (held, gross)) :
    exitEnd ρ entry p peak k bars = held := by
  rw [exitEnd, h]

theorem exitEnd_cons
    (h : exitLoop ρ entry p peak k (bar :: bars) =
      exitLoop ρ entry p (max peak bar.high) (k + 1) bars) :
    exitEnd ρ entry p peak k (bar :: bars) =
      exitEnd ρ entry p (max peak bar.high) (k + 1) bars := by
  rw [exitEnd, exitEnd, h, List.length_cons, Nat.add_right_comm, Nat.add_assoc]

/-- The loop leaves at a bar, or where it leaves the bars after it. -/
theorem exitEnd_cases (ρ : RoundingMode ℚ) (entry : ℚ) (p : MomentumParams) (peak : ℚ) (k : ℕ)
    (bar : Bar) (bars : List Bar) :
    exitEnd ρ entry p peak k (bar :: bars) = k + 1 ∨
      exitEnd ρ entry p peak k (bar :: bars) =
        exitEnd ρ entry p (max peak bar.high) (k + 1) bars := by
  rcases exitLoop_cases ρ entry p peak k bar bars with ⟨-, hexit⟩ | ⟨-, -, hexit⟩ | ⟨-, hgo⟩
  · exact Or.inl (exitEnd_of_exit hexit)
  · exact Or.inl (exitEnd_of_exit hexit)
  · exact Or.inr (exitEnd_cons hgo)

theorem le_exitEnd (ρ : RoundingMode ℚ) (entry : ℚ) (p : MomentumParams) (peak : ℚ) (k : ℕ)
    (bars : List Bar) : k ≤ exitEnd ρ entry p peak k bars := by
  induction bars generalizing peak k with
  | nil => exact le_rfl
  | cons bar bars ih =>
      have hlater := ih (max peak bar.high) (k + 1)
      rcases exitEnd_cases ρ entry p peak k bar bars with hend | hend
      · omega
      · omega

theorem lt_exitEnd (ρ : RoundingMode ℚ) (entry : ℚ) (p : MomentumParams) (peak : ℚ) (k : ℕ)
    {bars : List Bar} (hbars : bars ≠ []) : k < exitEnd ρ entry p peak k bars := by
  obtain ⟨bar, rest, rfl⟩ := List.exists_cons_of_ne_nil hbars
  have hlater := le_exitEnd ρ entry p (max peak bar.high) (k + 1) rest
  rcases exitEnd_cases ρ entry p peak k bar rest with hend | hend
  · omega
  · omega

theorem exitEnd_le (ρ : RoundingMode ℚ) (entry : ℚ) (p : MomentumParams) (peak : ℚ) (k : ℕ)
    (bars : List Bar) : exitEnd ρ entry p peak k bars ≤ k + bars.length := by
  induction bars generalizing peak k with
  | nil => exact le_rfl
  | cons bar bars ih =>
      have hlater := ih (max peak bar.high) (k + 1)
      rw [List.length_cons]
      rcases exitEnd_cases ρ entry p peak k bar bars with hend | hend
      · omega
      · omega

/-- A loop that exits on its first bar stops what is at or below the stop; what remains is the
price. -/
theorem loopStops_of_exit {gross : ℚ}
    (h : exitLoop ρ entry p peak k bars = some (k + 1, gross)) :
    LoopStops ρ entry p peak k bars ↔ -p.stopFrac ≤ gross := by
  constructor
  · intro hstops
    exact hstops.floor (k + 1) gross h
  · intro hgross
    refine ⟨fun j bar _ _ => ?_, fun held gross' h' => ?_⟩
    · rw [exitEnd_of_exit h]
      omega
    · rw [h] at h'
      cases h'
      exact hgross

theorem loopStops_cons
    (h : exitLoop ρ entry p peak k (bar :: bars) =
      exitLoop ρ entry p (max peak bar.high) (k + 1) bars) :
    LoopStops ρ entry p peak k (bar :: bars) ↔
      (bar.low ≤ stopLevel ρ entry p → bars = []) ∧
        LoopStops ρ entry p (max peak bar.high) (k + 1) bars := by
  constructor
  · rintro ⟨hleaves, hfloor⟩
    rw [exitEnd_cons h] at hleaves
    refine ⟨fun hlow => ?_, fun j bar' hbar hlow => ?_, fun held gross hexit => ?_⟩
    · by_contra hbars
      have hlate := lt_exitEnd ρ entry p (max peak bar.high) (k + 1) hbars
      exact absurd (hleaves 0 bar rfl hlow) (not_le.mpr hlate)
    · have hleft := hleaves (j + 1) bar' hbar hlow
      omega
    · exact hfloor held gross (h.trans hexit)
  · rintro ⟨hlast, hleaves, hfloor⟩
    refine ⟨fun j bar' hbar hlow => ?_, fun held gross hexit => ?_⟩
    · rw [exitEnd_cons h]
      cases j with
      | zero =>
          obtain rfl := Option.some.inj hbar
          rw [hlast hlow]
          exact le_rfl
      | succ j =>
          have hleft := hleaves j bar' hbar hlow
          omega
    · exact hfloor held gross (h.symm.trans hexit)

theorem trailCovers_cons : TrailCovers ρ entry p peak (bar :: bars) ↔
    (bar.low ≤ stopLevel ρ entry p → stopLevel ρ entry p ≤ trailLevel ρ peak p ∨
      (bars = [] ∧ trailLevel ρ peak p < bar.low)) ∧
    TrailCovers ρ entry p (max peak bar.high) bars := by
  constructor
  · intro h
    refine ⟨fun hlow => ?_, fun j bar' hbar hlow => ?_⟩
    · have hfirst := h 0 bar rfl hlow
      rw [trailLevelAt_zero, List.length_cons, Nat.add_right_cancel_iff, eq_comm,
        List.length_eq_zero_iff] at hfirst
      exact hfirst
    · have hlater := h (j + 1) bar' hbar hlow
      rw [trailLevelAt_succ, List.length_cons, Nat.add_right_cancel_iff] at hlater
      exact hlater
  · rintro ⟨hfirst, hlater⟩ j bar' hbar hlow
    cases j with
    | zero =>
        obtain rfl := Option.some.inj hbar
        rw [trailLevelAt_zero, List.length_cons, Nat.add_right_cancel_iff, eq_comm,
          List.length_eq_zero_iff]
        exact hfirst hlow
    | succ j =>
        rw [trailLevelAt_succ, List.length_cons, Nat.add_right_cancel_iff]
        exact hlater j bar' hbar hlow

theorem trailCovers_of_le (htrail : p.trailFrac < 1)
    (h : stopLevel ρ entry p ≤ trailLevel ρ peak p) : TrailCovers ρ entry p peak bars :=
  fun j _ _ _ => Or.inl (h.trans (le_trailLevelAt htrail j))

theorem lossCovers_cons (h : LossCovers ρ entry p peak (bar :: bars)) :
    (stopLevel ρ entry p < bar.low → bar.low ≤ trailLevel ρ peak p →
      -p.stopFrac ≤ ρ.simpleReturn bar.low entry) ∧
    LossCovers ρ entry p (max peak bar.high) bars := by
  refine ⟨fun hlow htrail => ?_, fun j bar' hbar hlow htrail => ?_⟩
  · rw [← trailLevelAt_zero] at htrail
    exact h 0 bar rfl hlow htrail
  · rw [← trailLevelAt_succ] at htrail
    exact h (j + 1) bar' hbar hlow htrail

theorem loopStops_of_covers (hentry : 0 < entry) (htrail : TrailCovers ρ entry p peak bars)
    (hloss : LossCovers ρ entry p peak bars) : LoopStops ρ entry p peak k bars := by
  induction bars generalizing peak k with
  | nil =>
      refine ⟨fun j bar hbar => ?_, fun held gross h => ?_⟩
      · cases hbar
      · cases h
  | cons bar bars ih =>
      obtain ⟨hhead, htail⟩ := trailCovers_cons.mp htrail
      obtain ⟨hloss, hlosses⟩ := lossCovers_cons hloss
      rcases exitLoop_cases ρ entry p peak k bar bars with ⟨-, hexit⟩ | ⟨hlow, hover, hexit⟩ |
        ⟨habove, hgo⟩
      · exact (loopStops_of_exit hexit).mpr le_rfl
      · -- it closes at the trail, which is not below the low that was reached
        rw [loopStops_of_exit hexit]
        rcases le_or_gt bar.low (stopLevel ρ entry p) with hstop | hstop
        · rcases hhead hstop with hcover | ⟨-, habove⟩
          · exact absurd (hover hstop) (not_lt.mpr hcover)
          · exact absurd habove (not_lt.mpr hlow)
        · exact (hloss hstop hlow).trans (ρ.simpleReturn_mono hentry hlow)
      · refine (loopStops_cons hgo).mpr ⟨fun hstop => ?_, ih htail hlosses⟩
        rcases hhead hstop with hcover | ⟨hlast, -⟩
        · exact absurd (habove.trans_le hstop) (not_lt.mpr hcover)
        · exact hlast

/-- Without rounding, a price has lost no more than the stop iff it is not below it. -/
theorem stop_le_iff {price : ℚ} (hentry : 0 < entry) :
    stopLevel (.exact ℚ) entry p ≤ price ↔
      -p.stopFrac ≤ (RoundingMode.exact ℚ).simpleReturn price entry := by
  simp only [RoundingMode.simpleReturn, stopLevel, RoundingMode.exact_apply]
  rw [le_sub_iff_add_le, le_div_iff₀ hentry, mul_comm, neg_add_eq_sub]

theorem lossCovers_exact (hentry : 0 < entry) : LossCovers (.exact ℚ) entry p peak bars :=
  fun _ _ _ hlow _ => (stop_le_iff hentry).mp hlow.le

theorem trailCovers_of_loopStops (hentry : 0 < entry) (htrail : p.trailFrac < 1)
    (h : LoopStops (.exact ℚ) entry p peak k bars) : TrailCovers (.exact ℚ) entry p peak bars := by
  induction bars generalizing peak k with
  | nil =>
      intro j bar hbar
      cases hbar
  | cons bar bars ih =>
      rcases exitLoop_cases (.exact ℚ) entry p peak k bar bars with ⟨hcover, -⟩ |
        ⟨hlow, -, hexit⟩ | ⟨habove, hgo⟩
      · exact trailCovers_of_le htrail hcover
      · exact trailCovers_of_le htrail ((stop_le_iff hentry).mpr ((loopStops_of_exit hexit).mp h))
      · obtain ⟨hlast, hrest⟩ := (loopStops_cons hgo).mp h
        exact trailCovers_cons.mpr ⟨fun hlow => Or.inr ⟨hlast hlow, habove⟩, ih hrest⟩

/-! ## A position -/

/-- The bars that a position may be held over. -/
def heldOver (p : MomentumParams) (bars : List Bar) : ℤ := min p.maxHold bars.length

/-- The hard stop is hard: no bar at or below it is held past, and no trade that the hard or the
trailing stop closes returns less than it. -/
structure HardStop (ρ : RoundingMode ℚ) (entry : ℚ) (p : MomentumParams) (bars : List Bar) :
    Prop where
  leaves : ∀ (j : ℕ) (bar : Bar), bars[j]? = some bar → bar.low ≤ stopLevel ρ entry p →
    (simulateExit ρ entry bars p).1 ≤ j + 1
  floor : (exitLoop ρ entry p entry 0 (bars.take (heldOver p bars).toNat)).isSome →
    -p.stopFrac ≤ (simulateExit ρ entry bars p).2

theorem simulateExit_end (ρ : RoundingMode ℚ) (entry : ℚ) (bars : List Bar) (p : MomentumParams) :
    (simulateExit ρ entry bars p).1.toNat =
      exitEnd ρ entry p entry 0 (bars.take (heldOver p bars).toNat) := by
  unfold simulateExit exitEnd heldOver
  dsimp only
  cases exitLoop ρ entry p entry 0 (bars.take (min p.maxHold bars.length).toNat) with
  | none =>
      rw [List.length_take]
      dsimp only
      omega
  | some exit => rfl

theorem simulateExit_of_exit {held : ℕ} {gross : ℚ}
    (h : exitLoop ρ entry p entry 0 (bars.take (heldOver p bars).toNat) = some (held, gross)) :
    simulateExit ρ entry bars p = ((held : ℤ), gross) := by
  unfold simulateExit
  dsimp only
  rw [show min p.maxHold bars.length = heldOver p bars from rfl, h]

theorem getElem?_heldOver {j : ℕ} :
    (bars.take (heldOver p bars).toNat)[j]? = some bar ↔
      (j : ℤ) < p.maxHold ∧ bars[j]? = some bar := by
  rw [List.getElem?_take]
  constructor
  · intro h
    split at h
    · next hj =>
        unfold heldOver at hj
        exact ⟨by omega, h⟩
    · cases h
  · rintro ⟨hhold, hbar⟩
    have hj : j < bars.length := (List.getElem?_eq_some_iff.mp hbar).1
    rw [if_pos (by unfold heldOver; omega), hbar]

theorem hardStop_iff_loopStops : HardStop ρ entry p bars ↔
    LoopStops ρ entry p entry 0 (bars.take (heldOver p bars).toNat) := by
  constructor
  · rintro ⟨hleaves, hfloor⟩
    refine ⟨fun j bar hbar hlow => ?_, fun held gross hexit => ?_⟩
    · have hleft := hleaves j bar (getElem?_heldOver.mp hbar).2 hlow
      rw [← simulateExit_end]
      omega
    · have hprice := hfloor (by rw [hexit]; rfl)
      rwa [simulateExit_of_exit hexit] at hprice
  · rintro ⟨hleaves, hfloor⟩
    refine ⟨fun j bar hbar hlow => ?_, fun hexit => ?_⟩
    · have hend := simulateExit_end ρ entry bars p
      by_cases hhold : (j : ℤ) < p.maxHold
      · have hleft := hleaves j bar (getElem?_heldOver.mpr ⟨hhold, hbar⟩) hlow
        omega
      · -- a later bar than any that is held over
        have hlast := exitEnd_le ρ entry p entry 0 (bars.take (heldOver p bars).toNat)
        rw [List.length_take, ← hend] at hlast
        unfold heldOver at hlast
        omega
    · obtain ⟨⟨held, gross⟩, hexit⟩ := Option.isSome_iff_exists.mp hexit
      rw [simulateExit_of_exit hexit]
      exact hfloor held gross hexit

/-- The trail is not below the stop on any bar that gets down to it, but for the last bar that is
held over, which may be between the two; and a bar between the stop and the trail has not lost
more than the stop, as the return is computed. -/
structure Covered (ρ : RoundingMode ℚ) (entry : ℚ) (p : MomentumParams) (bars : List Bar) :
    Prop where
  trail : ∀ (j : ℕ) (bar : Bar), bars[j]? = some bar → (j : ℤ) < p.maxHold →
    bar.low ≤ stopLevel ρ entry p →
      stopLevel ρ entry p ≤ trailLevelAt ρ entry p bars j ∨
        ((j : ℤ) + 1 = heldOver p bars ∧ trailLevelAt ρ entry p bars j < bar.low)
  loss : ∀ (j : ℕ) (bar : Bar), bars[j]? = some bar → (j : ℤ) < p.maxHold →
    stopLevel ρ entry p < bar.low → bar.low ≤ trailLevelAt ρ entry p bars j →
      -p.stopFrac ≤ ρ.simpleReturn bar.low entry

/-- The bars that may be held over are checked against the same trail, and end where they end. -/
theorem trailLevelAt_heldOver (ρ : RoundingMode ℚ) (entry : ℚ) {j : ℕ} (hbar : bars[j]? = some bar)
    (hhold : (j : ℤ) < p.maxHold) :
    trailLevelAt ρ entry p (bars.take (heldOver p bars).toNat) j = trailLevelAt ρ entry p bars j ∧
      (j + 1 = (bars.take (heldOver p bars).toNat).length ↔ (j : ℤ) + 1 = heldOver p bars) := by
  have hj : j < bars.length := (List.getElem?_eq_some_iff.mp hbar).1
  have hover : (j : ℤ) < heldOver p bars := lt_min hhold (Int.ofNat_lt.mpr hj)
  refine ⟨trailLevelAt_take (by omega), ?_⟩
  rw [List.length_take]
  unfold heldOver
  omega

theorem covered_iff : Covered ρ entry p bars ↔
    TrailCovers ρ entry p entry (bars.take (heldOver p bars).toNat) ∧
      LossCovers ρ entry p entry (bars.take (heldOver p bars).toNat) := by
  constructor
  · rintro ⟨htrail, hloss⟩
    refine ⟨fun j bar hget hlow => ?_, fun j bar hget hlow habove => ?_⟩
    · obtain ⟨hhold, hget⟩ := getElem?_heldOver.mp hget
      obtain ⟨hlevel, hlast⟩ := trailLevelAt_heldOver ρ entry hget hhold
      rw [hlevel, hlast]
      exact htrail j bar hget hhold hlow
    · obtain ⟨hhold, hget⟩ := getElem?_heldOver.mp hget
      rw [(trailLevelAt_heldOver ρ entry hget hhold).1] at habove
      exact hloss j bar hget hhold hlow habove
  · rintro ⟨htrail, hloss⟩
    refine ⟨fun j bar hget hhold hlow => ?_, fun j bar hget hhold hlow habove => ?_⟩
    · obtain ⟨hlevel, hlast⟩ := trailLevelAt_heldOver ρ entry hget hhold
      rw [← hlevel, ← hlast]
      exact htrail j bar (getElem?_heldOver.mpr ⟨hhold, hget⟩) hlow
    · rw [← (trailLevelAt_heldOver ρ entry hget hhold).1] at habove
      exact hloss j bar (getElem?_heldOver.mpr ⟨hhold, hget⟩) hlow habove

/-- Over all series: where the trail covers the stop, the stop is hard, however levels and returns
are rounded; without rounding, it is hard nowhere else. -/
theorem hardStop_of_covered (hentry : 0 < entry) (htrail : p.trailFrac < 1) (bars : List Bar) :
    (∀ ρ : RoundingMode ℚ, Covered ρ entry p bars → HardStop ρ entry p bars) ∧
      (HardStop (.exact ℚ) entry p bars → Covered (.exact ℚ) entry p bars) := by
  constructor
  · intro ρ hcovered
    obtain ⟨hcovers, hloss⟩ := covered_iff.mp hcovered
    exact hardStop_iff_loopStops.mpr (loopStops_of_covers hentry hcovers hloss)
  · intro hstop
    have hcovers := trailCovers_of_loopStops hentry htrail (hardStop_iff_loopStops.mp hstop)
    exact covered_iff.mpr ⟨hcovers, lossCovers_exact hentry⟩

/-- The parameters of the `moonshot_gate` script: its trail is wider than its stop. -/
def moonshot : MomentumParams :=
  { enter1m := 15 / 100, trailFrac := 40 / 100, stopFrac := 30 / 100, maxHold := 2160
    cost := 5 / 1000 }

/-- The peak has lifted the trail over the stop before the price gets there. -/
theorem hardStop_of_covered_lifted :
    HardStop (.exact ℚ) 100 moonshot [⟨130, 99, 120⟩, ⟨121, 70, 75⟩] := by
  refine (hardStop_of_covered (by norm_num) (by decide +kernel) _).1 (.exact ℚ)
    ⟨fun j bar hbar _ hlow => ?_, fun j bar hbar _ hlow habove => ?_⟩
  · rcases j with _ | _ | j
    · obtain rfl := Option.some.inj hbar
      exact absurd hlow (by decide +kernel)
    · left
      decide +kernel
    · cases hbar
  · rcases j with _ | _ | j
    · obtain rfl := Option.some.inj hbar
      exact absurd habove (by decide +kernel)
    · obtain rfl := Option.some.inj hbar
      exact absurd hlow (by decide +kernel)
    · cases hbar

/-- A bar gets 5 under the stop, the next one 20: the position is held past the first and closed
by its trail, at a loss of 40 percent. -/
def crash : List Bar := [⟨100, 65, 68⟩, ⟨68, 50, 55⟩]

theorem stop_hidden : simulateExit (.exact ℚ) 100 crash moonshot = (2, -2 / 5) ∧
    ¬∀ (entry : ℚ) (p : MomentumParams) (bars : List Bar), 0 < entry → 0 ≤ p.trailFrac →
      p.trailFrac < 1 → 0 ≤ p.stopFrac → p.stopFrac < 1 → HardStop (.exact ℚ) entry p bars := by
  have hexit : simulateExit (.exact ℚ) 100 crash moonshot = (2, -2 / 5) := by decide +kernel
  refine ⟨hexit, fun h => ?_⟩
  have hstop := h 100 moonshot crash (by norm_num) (by decide +kernel) (by decide +kernel)
    (by decide +kernel) (by decide +kernel)
  have hleft := hstop.leaves 0 ⟨100, 65, 68⟩ rfl (by decide +kernel)
  rw [hexit] at hleft
  exact absurd hleft (by decide)

/-- In the backtest, a trail that is not wider than the stop never hides it: no bar at or below the
stop is held past. -/
theorem trailCovers_of_trail_le (hentry : 0 < entry) (htrail : p.trailFrac < 1)
    (hle : p.trailFrac ≤ p.stopFrac) : TrailCovers ρ entry p entry bars :=
  trailCovers_of_le htrail (ρ.mul_le_mul_left hentry.le (ρ.mono (by linarith)))

theorem hardStop_of_trail_le {prev2 prev : ℚ} (hentry : entryOk prev2 prev entry p = true)
    (henter : -1 < p.enter1m) (htrail : p.trailFrac < 1) (hle : p.trailFrac ≤ p.stopFrac)
    (bars : List Bar) : HardStop (.exact ℚ) entry p bars := by
  have hpos := entry_pos hentry henter
  exact hardStop_iff_loopStops.mpr (loopStops_of_covers hpos
    (trailCovers_of_trail_le hpos htrail hle) (lossCovers_exact hpos))

end TreasuryForge

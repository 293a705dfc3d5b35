/-
# `Live.Drift` — how old data gets before the gate closes

Data is stamped on the wall clock, and so is its age.  The monotonic clock comes in
only when a check compares its step on both clocks with the step of the check before;
each check may find them up to `maxClockDriftNs` apart, and the next one starts anew.

`Gated` is a gate with a history of what the bound speaks of: when the data arrived on
both clocks, the reading of the last check before that, and how many checks there have
been since, all of them with the clocks in order or not.  `age_bounded` says what an
opening of the gate tells about the monotonic clock: the budget, one drift for each
check since, and what the wall clock had gained when the data was stamped.
-/
import TreasuryForge.Live.Guards

namespace TreasuryForge

/-- Data arrives, or a check is made, at these readings of the two clocks. -/
inductive GateAct where
  | observe (wall mono : ℤ)
  | check (wall mono : ℤ)

def GateAct.mono : GateAct → ℤ
  | .observe _ m => m
  | .check _ m => m

/-- The readings of the last check. -/
def StalenessGate.reading (g : StalenessGate) : Option (ℤ × ℤ) :=
  match g.prevWallNs, g.prevMonoNs with
  | some w, some m => some (w, m)
  | _, _ => none

/-- A gate and its history since the last data arrived. -/
structure Gated where
  gate : StalenessGate
  arrived : Option (ℤ × ℤ) := none
  before : Option (ℤ × ℤ) := none
  checks : ℕ := 0
  inOrder : Bool := true

namespace Gated

def step (s : Gated) : GateAct → Gated
  | .observe w m =>
      { gate := s.gate.observeData w, arrived := some (w, m), before := s.gate.reading }
  | .check w m =>
      { s with
        gate := (s.gate.check w m).2
        checks := s.checks + 1
        inOrder := s.inOrder && (s.gate.clockVerdict w m).isNone }

/-- A new gate, after these acts. -/
def run (age drift : ℤ) (h : 0 < age) (acts : List GateAct) : Gated :=
  acts.foldl step
    { gate := { maxDataAgeNs := age, maxDataAgeNs_pos := h, maxClockDriftNs := drift } }

variable {s : Gated} {age drift w m : ℤ}

/-! ## One check -/

/-- A check that finds the clocks in order loses at most the tolerated drift. -/
theorem clock_step {g : StalenessGate} {p : ℤ × ℤ} (hp : g.reading = some p)
    (h : g.clockVerdict w m = none) : m - p.2 ≤ w - p.1 + g.maxClockDriftNs := by
  unfold StalenessGate.reading at hp
  unfold StalenessGate.clockVerdict at h
  split at hp
  · next pw pm hw hm =>
      cases hp
      rw [hw, hm] at h
      simp only at h
      split at h
      · cases h
      · split at h
        · cases h
        · next hdrift =>
            have habs := abs_le.mp (not_lt.mp hdrift)
            have hlow := habs.1
            show m - pm ≤ w - pw + g.maxClockDriftNs
            omega
  · cases hp

/-! ## The history -/

/-- The budgets never change; the gate has the stamp of the data; and since the check
before it, the monotonic clock is ahead by a drift for each check at most. -/
structure Tracked (age drift : ℤ) (s : Gated) : Prop where
  budget : s.gate.maxDataAgeNs = age
  tolerance : s.gate.maxClockDriftNs = drift
  stamp : s.gate.lastDataNs = s.arrived.map Prod.fst
  ahead : ∀ p ∈ s.before, s.inOrder = true →
    ∃ q, s.gate.reading = some q ∧ q.2 - p.2 ≤ q.1 - p.1 + s.checks * drift

theorem Tracked.step (h : Tracked age drift s) (a : GateAct) : Tracked age drift (s.step a) := by
  cases a with
  | observe w m =>
      refine ⟨h.budget, h.tolerance, rfl, fun p hp _ => ⟨p, ?_, ?_⟩⟩
      · exact hp
      · simp [Gated.step]
  | check w m =>
      refine ⟨h.budget, h.tolerance, h.stamp, fun p hp hord => ⟨(w, m), rfl, ?_⟩⟩
      obtain ⟨hwas, hnow⟩ := Bool.and_eq_true_iff.mp hord
      obtain ⟨q, hq, hahead⟩ := h.ahead p hp hwas
      have hstep := clock_step hq (Option.isNone_iff_eq_none.mp hnow)
      rw [h.tolerance] at hstep
      show m - p.2 ≤ w - p.1 + (s.checks + 1 : ℕ) * drift
      push_cast
      linarith

theorem tracked_run (h : 0 < age) (acts : List GateAct) : Tracked age drift (run age drift h acts) := by
  have hall : ∀ s, Tracked age drift s → Tracked age drift (acts.foldl Gated.step s) := by
    induction acts with
    | nil => exact fun s hs => hs
    | cons a acts ih => exact fun s hs => ih _ (hs.step a)
  exact hall _ ⟨rfl, rfl, rfl, fun _ hp => by cases hp⟩

/-- When the gate opens, the data is within its budget on the wall clock; and if a check
was made before the data arrived and all since found the clocks in order, then the time
on the monotonic clock is within the budget, a drift for each check since, and what the
wall clock gained on the other from that check to the arrival. -/
theorem age_bounded (hpos : 0 < age) (acts : List GateAct)
    (hok : ((run age drift hpos acts).gate.check w m).1.ok = true) :
    ∃ wa ma, (run age drift hpos acts).arrived = some (wa, ma) ∧ 0 ≤ w - wa ∧ w - wa ≤ age ∧
      ∀ p ∈ (run age drift hpos acts).before, (run age drift hpos acts).inOrder = true →
        m - ma ≤ age + ((run age drift hpos acts).checks + 1) * drift +
          ((wa - p.1) - (ma - p.2)) := by
  have h : Tracked age drift (run age drift hpos acts) := tracked_run hpos acts
  generalize run age drift hpos acts = s at h hok
  obtain ⟨last, hlast, -, hge, hle⟩ := StalenessGate.check_ok hok
  rw [h.stamp] at hlast
  obtain ⟨⟨wa, ma⟩, harr, rfl⟩ := Option.map_eq_some_iff.mp hlast
  refine ⟨wa, ma, harr, hge, h.budget ▸ hle, ?_⟩
  intro p hp hord
  have hclock : s.gate.clockVerdict w m = none := by
    cases hc : s.gate.clockVerdict w m with
    | none => rfl
    | some v =>
        rw [StalenessGate.check, hc] at hok
        rw [Option.getD_some, StalenessGate.clockVerdict_ok hc] at hok
        cases hok
  obtain ⟨q, hq, hahead⟩ := h.ahead p hp hord
  have hstep := clock_step hq hclock
  rw [h.tolerance] at hstep
  rw [h.budget] at hle
  simp only at hge hle
  linarith

/-- The clocks agree, and the data is three units old. -/
theorem age_bounded_agreeing :
    ((run 5 1 (by decide) [.check 0 0, .observe 1 1, .check 2 2]).gate.check 4 4).1.ok = true ∧
    (4 : ℤ) - 1 ≤ 5 + (1 + 1) * 1 + ((1 - 0) - (1 - 0)) := by
  have hok : ((run 5 1 (by decide) [.check 0 0, .observe 1 1, .check 2 2]).gate.check 4 4).1.ok =
      true := by decide
  obtain ⟨wa, ma, harr, -, -, hbound⟩ := age_bounded (by decide) _ hok
  cases harr
  exact ⟨hok, hbound (0, 0) rfl rfl⟩

/-! ### Gates that open on older data -/

/-- The gate opens at these readings, the monotonic clock never having gone back, on data
that is older on it than budget and drift together. -/
def Overstays (age drift : ℤ) (h : 0 < age) (acts : List GateAct) (w m : ℤ) : Prop :=
  ((acts.map GateAct.mono) ++ [m]).Pairwise (· ≤ ·) ∧
    ((run age drift h acts).gate.check w m).1.ok = true ∧
    ∃ a ∈ (run age drift h acts).arrived, ¬ m - a.2 ≤ age + drift

instance (age drift : ℤ) (h : 0 < age) (acts : List GateAct) (w m : ℤ) :
    Decidable (Overstays age drift h acts w m) :=
  inferInstanceAs (Decidable (_ ∧ _ ∧ ∃ a ∈ (run age drift h acts).arrived, _))

/-- The wall clock stands still, and every check tolerates one more unit of drift; there
is no check before the data, and none to compare the first one with; the check that
follows one that halted compares with that; and the wall clock jumps between a check and
the data. -/
theorem drift_adds_up :
    Overstays 5 1 (by decide) [.check 0 0, .observe 0 0, .check 0 1, .check 0 2, .check 0 3,
      .check 0 4, .check 0 5, .check 0 6] 0 7 ∧
    Overstays 5 1 (by decide) [.observe 0 0] 0 100 ∧
    Overstays 5 1 (by decide) [.check 0 0, .observe 0 0, .check 0 100] 0 101 ∧
    Overstays 5 1 (by decide) [.check 0 0, .observe 95 1] 100 100 := by
  decide

end Gated

end TreasuryForge

/-
# `Shadow.Carry` — the carry engines over a funding history

`backtest_carry` of `carry_backtest.py` and `funding_persistence` of
`funding_persistence.py`, against the trace of `FundingCarrySignal` (`Shadow.Signals`).
The three keep the hysteresis and the age of an episode each in its own way;
`carry_step` and `persistence_step` say what one interval of the signal is to the other
two.
-/
import TreasuryForge.Base.Spells
import TreasuryForge.Shadow.Signals
import Mathlib.Algebra.BigOperators.Group.List.Basic
import Mathlib.Algebra.Order.Field.Rat
import Mathlib.Tactic.Linarith
import Mathlib.Tactic.Ring

namespace TreasuryForge

namespace Shadow

open Spells

/-! ## The economic backtest -/

structure CarryBtResult where
  nPositions : ℕ
  totalFunding : ℚ
  totalCost : ℚ
  returns : List ℚ := []
  holds : List ℤ := []
  deriving DecidableEq, Repr

/-- The locals of `backtest_carry`. -/
structure CarryState where
  inEpisode : Bool := false
  age : ℤ := 0
  inPos : Bool := false
  collected : ℚ := 0
  hold : ℤ := 0
  returns : List ℚ := []
  holds : List ℤ := []
  totalFunding : ℚ := 0
  nCost : ℤ := 0
  deriving DecidableEq, Repr

namespace CarryState

/-- `_close` -/
def close (roundTrip : ℚ) (c : CarryState) : CarryState :=
  { c with
    returns := c.returns ++ [c.collected - roundTrip]
    holds := c.holds ++ [c.hold]
    totalFunding := c.totalFunding + c.collected
    nCost := c.nCost + 1
    inPos := false, collected := 0, hold := 0 }

/-- An open position is closed. -/
def closeOpen (roundTrip : ℚ) (c : CarryState) : CarryState :=
  if c.inPos then c.close roundTrip else c

/-- The episode begins, ends, or is one interval older. -/
def episode (enter exit roundTrip : ℚ) (c : CarryState) (f : ℚ) : CarryState :=
  if c.inEpisode = false then
    if enter ≤ f then { c with inEpisode := true, age := 1 } else c
  else if f < exit then { c.closeOpen roundTrip with inEpisode := false, age := 0 }
  else { c with age := c.age + 1 }

/-- The age gate. -/
def gate (minAge : ℤ) (c : CarryState) : CarryState :=
  if c.inEpisode ∧ c.inPos = false ∧ max minAge 1 ≤ c.age then { c with inPos := true } else c

def collect (c : CarryState) (f : ℚ) : CarryState :=
  if c.inPos then { c with collected := c.collected + f, hold := c.hold + 1 } else c

/-- One interval of the loop. -/
def step (enter exit roundTrip : ℚ) (minAge : ℤ) (c : CarryState) (f : ℚ) : CarryState :=
  ((c.episode enter exit roundTrip f).gate minAge).collect f

end CarryState

def backtestCarry (history : List ℚ) (enter exit roundTrip : ℚ) (minAge : ℤ) : CarryBtResult :=
  let c := (history.foldl (CarryState.step enter exit roundTrip minAge) {}).closeOpen roundTrip
  { nPositions := c.returns.length, totalFunding := c.totalFunding
    totalCost := c.nCost * roundTrip, returns := c.returns, holds := c.holds }

/-! ## The persistence of episodes -/

structure PersistenceStats where
  nEpisodes : ℕ
  durations : List ℤ
  breakevenIntervals : ℤ
  lastCensored : Bool
  deriving DecidableEq, Repr

/-- The locals of `funding_persistence`. -/
structure RegimeState where
  durations : List ℤ := []
  inRegime : Bool := false
  dur : ℤ := 0
  deriving DecidableEq, Repr

def RegimeState.step (enterRate exitRate : ℚ) (r : RegimeState) (f : ℚ) : RegimeState :=
  if r.inRegime = false then
    if enterRate ≤ f then { r with inRegime := true, dur := 1 } else r
  else if f < exitRate then { r with durations := r.durations ++ [r.dur], inRegime := false }
  else { r with dur := r.dur + 1 }

/-- The last episode counts although its end is not in the data. -/
def RegimeState.censor (r : RegimeState) : RegimeState :=
  if r.inRegime then { r with durations := r.durations ++ [r.dur] } else r

def fundingPersistence (history : List ℚ) (enterRate exitRate : ℚ) (breakevenIntervals : ℤ) :
    Except String PersistenceStats :=
  if enterRate < exitRate then .error "exit_rate must be <= enter_rate"
  else
    let r := history.foldl (RegimeState.step enterRate exitRate) {}
    .ok { nEpisodes := r.censor.durations.length, durations := r.censor.durations
          breakevenIntervals, lastCensored := r.inRegime }

/-! ## The trace of the signal -/

def Action.mark : Action → Mark
  | .enter => .opens
  | .hold => .stays
  | .exit => .closes
  | .flat => .idle

/-- What a decision, beside the rate it was made on, does to the position. -/
def decisionMark (d : Action × ℚ) : Mark := d.1.mark

/-- The decisions over a history, each with its rate. -/
def FundingCarrySignal.trace (s : FundingCarrySignal) : List ℚ → List (Action × ℚ)
  | [] => []
  | f :: fs => ((s.decide f).1, f) :: (s.decide f).2.trace fs

/-- The positions of a signal over a history; the last one may be open. -/
def FundingCarrySignal.positions (s : FundingCarrySignal) (history : List ℚ) :
    List (Spell (Action × ℚ)) :=
  spells decisionMark (s.trace history)

/-- Intervals from ENTER through the last HOLD. -/
def holding (s : Spell (Action × ℚ)) : ℤ := s.items.length

/-- The funding of those intervals. -/
def funding (s : Spell (Action × ℚ)) : ℚ := (s.items.map (·.2)).sum

/-! ## One interval of the signal -/

/-- What a decision does to the spells: those that are done, and the open one. -/
def Cuts (k : ℕ) (d : Action × ℚ) (done done' : List (Spell (Action × ℚ)))
    (cur cur' : Option (Spell (Action × ℚ))) : Prop :=
  ∀ rest, done ++ spellsFrom decisionMark k cur (d :: rest) =
    done' ++ spellsFrom decisionMark (k + 1) cur' rest

section Cuts
variable {k : ℕ} {f : ℚ} {done : List (Spell (Action × ℚ))} {sp : Spell (Action × ℚ)}

theorem cuts_enter : Cuts k (.enter, f) done done none
    (some { start := k, items := [(.enter, f)] }) := by
  intro rest
  rw [spellsFrom_opens rfl]

theorem cuts_hold : Cuts k (.hold, f) done done (some sp) (some (sp.push (.hold, f))) := by
  intro rest
  rw [spellsFrom_stays rfl]

theorem cuts_exit : Cuts k (.exit, f) done (done ++ [sp.close (.exit, f)]) (some sp) none := by
  intro rest
  rw [spellsFrom_closes rfl, List.append_assoc]
  rfl

theorem cuts_flat : Cuts k (.flat, f) done done none none := by
  intro rest
  rw [spellsFrom_idle rfl]

end Cuts

namespace FundingCarrySignal

variable {s : FundingCarrySignal} {f : ℚ}

theorem decide_out (hout : s.inPosition = false) : s.decide f =
    if max s.minAge 1 ≤ (s.advanceAge f).age then
      (.enter, { s.advanceAge f with inPosition := true })
    else (.flat, s.advanceAge f) := by
  have hkeep : (s.advanceAge f).inPosition = false := by
    unfold advanceAge
    split
    · split <;> exact hout
    · split <;> exact hout
  unfold decide
  dsimp only
  rw [hkeep, if_neg (by simp), (s.advanceAge_params f).2]

theorem decide_exit (hin : s.inPosition = true) (hage : s.age ≠ 0) (hf : f < s.p.exitRate) :
    s.decide f = (.exit, { s with age := 0, inPosition := false }) := by
  unfold decide advanceAge
  dsimp only
  rw [if_neg hage, if_pos hf]
  dsimp only
  rw [if_pos hin, if_pos rfl]

theorem decide_hold (hin : s.inPosition = true) (hage : 0 < s.age) (hf : ¬ f < s.p.exitRate) :
    s.decide f = (.hold, { s with age := s.age + 1 }) := by
  unfold decide advanceAge
  dsimp only
  rw [if_neg hage.ne', if_neg hf]
  dsimp only
  rw [if_pos hin, if_neg (by omega)]

theorem advanceAge_nonneg (h : 0 ≤ s.age) : 0 ≤ (s.advanceAge f).age := by
  unfold advanceAge
  split
  · split
    · exact zero_le_one
    · exact h
  · split
    · exact le_rfl
    · exact Int.add_nonneg h zero_le_one

end FundingCarrySignal

/-! ## The backtest keeps up with the signal -/

/-- The positions that are in the books of the backtest. -/
structure Booked (roundTrip : ℚ) (c : CarryState) (done : List (Spell (Action × ℚ))) : Prop where
  returns : c.returns = done.map (funding · - roundTrip)
  holds : c.holds = done.map holding
  totalFunding : c.totalFunding = (done.map funding).sum
  nCost : c.nCost = done.length

/-- The backtest stands where the signal does, with the spells that are done in its
books and the open one in its locals. -/
structure Tracks (roundTrip : ℚ) (s : FundingCarrySignal) (c : CarryState)
    (done : List (Spell (Action × ℚ))) (cur : Option (Spell (Action × ℚ))) : Prop where
  nonneg : 0 ≤ s.age
  aged : s.inPosition = true → 0 < s.age
  age : c.age = s.age
  inEpisode : c.inEpisode = decide (s.age ≠ 0)
  inPos : c.inPos = s.inPosition
  out : s.inPosition = false → cur = none ∧ c.hold = 0 ∧ c.collected = 0
  inside : s.inPosition = true →
    ∃ sp, cur = some sp ∧ c.hold = holding sp ∧ c.collected = funding sp
  booked : Booked roundTrip c done

section Backtest
variable {roundTrip f : ℚ} {s : FundingCarrySignal} {c : CarryState} {k : ℕ}
  {done : List (Spell (Action × ℚ))} {cur : Option (Spell (Action × ℚ))}

theorem CarryState.aged {inEpisode : Bool} {age : ℤ} (he : c.inEpisode = inEpisode)
    (ha : c.age = age) : c = { c with inEpisode, age } := by
  subst he
  subst ha
  rfl

/-- Out of a position, the episode is as old as the signal says. -/
theorem Tracks.episode (h : Tracks roundTrip s c done cur) (hout : s.inPosition = false) :
    c.episode s.p.enterRate s.p.exitRate roundTrip f =
      { c with inEpisode := decide ((s.advanceAge f).age ≠ 0), age := (s.advanceAge f).age } := by
  have hpos : c.inPos = false := h.inPos.trans hout
  have hnonneg := h.nonneg
  unfold CarryState.episode FundingCarrySignal.advanceAge
  by_cases hage : s.age = 0
  · rw [h.inEpisode, if_pos (by simp [hage]), if_pos hage]
    split
    · rfl
    · exact CarryState.aged h.inEpisode h.age
  · rw [h.inEpisode, if_neg (by simp [hage]), if_neg hage]
    split
    · rw [CarryState.closeOpen, if_neg (by simp [hpos])]
      rfl
    · have hnext : s.age + 1 ≠ 0 := by omega
      simp [h.age, hage, hnext]

/-- Only the books count. -/
theorem Booked.congr {c' : CarryState} (h : Booked roundTrip c done)
    (hr : c'.returns = c.returns) (hh : c'.holds = c.holds)
    (hf : c'.totalFunding = c.totalFunding) (hn : c'.nCost = c.nCost) :
    Booked roundTrip c' done :=
  ⟨hr.trans h.returns, hh.trans h.holds, hf.trans h.totalFunding, hn.trans h.nCost⟩

theorem Booked.append (h : Booked roundTrip c done) (sp : Spell (Action × ℚ))
    (hhold : c.hold = holding sp) (hcollected : c.collected = funding sp) :
    Booked roundTrip (c.close roundTrip) (done ++ [sp]) := by
  constructor
  · simp [CarryState.close, h.returns, hcollected]
  · simp [CarryState.close, h.holds, hhold]
  · simp [CarryState.close, h.totalFunding, hcollected]
  · simp [CarryState.close, h.nCost]

/-- One interval more. -/
theorem holding_push (sp : Spell (Action × ℚ)) (d : Action × ℚ) :
    holding (sp.push d) = holding sp + 1 := by
  simp [holding]

theorem funding_push (sp : Spell (Action × ℚ)) (d : Action × ℚ) :
    funding (sp.push d) = funding sp + d.2 := by
  simp [funding]

/-- Outside a position: an ENTER when the age gate lets it through, else FLAT. -/
theorem Tracks.step_out (h : Tracks roundTrip s c done cur) (hout : s.inPosition = false) :
    ∃ cur', Tracks roundTrip (s.decide f).2
        (c.step s.p.enterRate s.p.exitRate roundTrip s.minAge f) done cur' ∧
      Cuts k ((s.decide f).1, f) done done cur cur' := by
  have hnonneg := FundingCarrySignal.advanceAge_nonneg (f := f) h.nonneg
  have hpos : c.inPos = false := h.inPos.trans hout
  obtain ⟨rfl, hhold, hcollected⟩ := h.out hout
  rw [CarryState.step, h.episode hout, FundingCarrySignal.decide_out hout, CarryState.gate]
  by_cases hgate : max s.minAge 1 ≤ (s.advanceAge f).age
  · have hage : 0 < (s.advanceAge f).age := by omega
    rw [if_pos hgate, if_pos ⟨by simp [hage.ne'], hpos, hgate⟩, CarryState.collect, if_pos rfl]
    refine ⟨_, ⟨hnonneg, fun _ => hage, rfl, rfl, rfl, ?_, ?_,
      h.booked.congr rfl rfl rfl rfl⟩, cuts_enter⟩
    · exact fun hfalse => by cases hfalse
    · intro _
      refine ⟨_, rfl, ?_, ?_⟩
      · simp [hhold, holding]
      · simp [hcollected, funding]
  · have hkeep : (s.advanceAge f).inPosition = false := by
      have hinside := s.decide_inside f
      rw [FundingCarrySignal.decide_out hout, if_neg hgate] at hinside
      exact hinside
    rw [if_neg hgate, if_neg fun hc => hgate hc.2.2, CarryState.collect]
    dsimp only
    rw [hpos, if_neg (by simp)]
    refine ⟨none, ⟨hnonneg, ?_, rfl, rfl, hkeep.symm, fun _ => ⟨rfl, hhold, hcollected⟩, ?_,
      h.booked.congr rfl rfl rfl rfl⟩, cuts_flat⟩
    · intro hin
      rw [hkeep] at hin
      cases hin
    · intro hin
      rw [hkeep] at hin
      cases hin

/-- In a position: EXIT below the exit rate, else HOLD. -/
theorem Tracks.step_in (h : Tracks roundTrip s c done cur) (hin : s.inPosition = true) :
    ∃ done' cur', Tracks roundTrip (s.decide f).2
        (c.step s.p.enterRate s.p.exitRate roundTrip s.minAge f) done' cur' ∧
      Cuts k ((s.decide f).1, f) done done' cur cur' := by
  have hage := h.aged hin
  have hpos : c.inPos = true := h.inPos.trans hin
  obtain ⟨sp, rfl, hhold, hcollected⟩ := h.inside hin
  rw [CarryState.step, CarryState.episode, h.inEpisode, if_neg (by simp [hage.ne'])]
  by_cases hf : f < s.p.exitRate
  · rw [FundingCarrySignal.decide_exit hin hage.ne' hf, if_pos hf, CarryState.closeOpen,
      if_pos hpos, CarryState.gate, if_neg (by simp), CarryState.collect, if_neg (by
        simp [CarryState.close])]
    refine ⟨done ++ [sp.close (.exit, f)], none, ⟨le_rfl, ?_, rfl, rfl, rfl,
      fun _ => ⟨rfl, rfl, rfl⟩, ?_, (h.booked.append (sp.close (.exit, f)) hhold hcollected).congr
      rfl rfl rfl rfl⟩,
      cuts_exit⟩
    · exact fun htrue => by cases htrue
    · exact fun htrue => by cases htrue
  · rw [FundingCarrySignal.decide_hold hin hage hf, if_neg hf, CarryState.gate,
      if_neg (by simp [hpos]), CarryState.collect, if_pos hpos]
    have hage' : 0 < s.age + 1 := by omega
    refine ⟨done, some (sp.push (.hold, f)), ⟨hage'.le, fun _ => hage', ?_, ?_, h.inPos,
      ?_, ?_, h.booked.congr rfl rfl rfl rfl⟩, cuts_hold⟩
    · exact congrArg (· + 1) h.age
    · simp [hage.ne', hage'.ne']
    · intro hout
      rw [hin] at hout
      cases hout
    · intro _
      refine ⟨_, rfl, ?_, ?_⟩
      · rw [holding_push, ← hhold]
      · rw [funding_push, ← hcollected]

/-- Over a history: what is open at its end is closed there. -/
theorem Tracks.run (history : List ℚ) : ∀ {s : FundingCarrySignal} {c : CarryState} {k : ℕ}
    {done : List (Spell (Action × ℚ))} {cur : Option (Spell (Action × ℚ))},
    Tracks roundTrip s c done cur →
    Booked roundTrip ((history.foldl
        (CarryState.step s.p.enterRate s.p.exitRate roundTrip s.minAge) c).closeOpen roundTrip)
      (done ++ spellsFrom decisionMark k cur (s.trace history)) := by
  induction history with
  | nil =>
      intro s c k done cur h
      rw [List.foldl_nil, FundingCarrySignal.trace, spellsFrom_nil, CarryState.closeOpen, h.inPos]
      cases hin : s.inPosition with
      | false =>
          rw [(h.out hin).1, if_neg (by simp), Option.toList_none, List.append_nil]
          exact h.booked
      | true =>
          obtain ⟨sp, rfl, hhold, hcollected⟩ := h.inside hin
          rw [if_pos rfl]
          exact h.booked.append sp hhold hcollected
  | cons f fs ih =>
      intro s c k done cur h
      rw [List.foldl_cons, FundingCarrySignal.trace]
      obtain ⟨hp, hminAge⟩ := s.decide_params f
      cases hin : s.inPosition with
      | false =>
          obtain ⟨cur', h', hcuts⟩ := h.step_out (f := f) (k := k) hin
          rw [hcuts, ← hp, ← hminAge]
          rw [← hp, ← hminAge] at h'
          exact ih h'
      | true =>
          obtain ⟨done', cur', h', hcuts⟩ := h.step_in (f := f) (k := k) hin
          rw [hcuts, ← hp, ← hminAge]
          rw [← hp, ← hminAge] at h'
          exact ih h'

end Backtest

/-! ## So does the persistence of episodes, without an age gate -/

/-- Without an age gate a position is an episode. -/
structure Follows (s : FundingCarrySignal) (r : RegimeState)
    (done : List (Spell (Action × ℚ))) (cur : Option (Spell (Action × ℚ))) : Prop where
  ungated : s.minAge ≤ 1
  nonneg : 0 ≤ s.age
  aged : s.inPosition = decide (s.age ≠ 0)
  inRegime : r.inRegime = s.inPosition
  out : s.inPosition = false → cur = none
  inside : s.inPosition = true → ∃ sp, cur = some sp ∧ r.dur = holding sp
  durations : r.durations = done.map holding

section Persistence
variable {f : ℚ} {s : FundingCarrySignal} {r : RegimeState} {k : ℕ}
  {done : List (Spell (Action × ℚ))} {cur : Option (Spell (Action × ℚ))}

theorem Follows.step_out (h : Follows s r done cur) (hout : s.inPosition = false) :
    ∃ cur', Follows (s.decide f).2 (r.step s.p.enterRate s.p.exitRate f) done cur' ∧
      Cuts k ((s.decide f).1, f) done done cur cur' := by
  have hage : s.age = 0 := by
    have haged := h.aged
    rw [hout] at haged
    simpa using haged.symm
  have hgate : max s.minAge 1 = 1 := max_eq_right h.ungated
  obtain rfl := h.out hout
  rw [FundingCarrySignal.decide_out hout, hgate, FundingCarrySignal.advanceAge, if_pos hage,
    RegimeState.step, h.inRegime, if_pos hout]
  by_cases hf : s.p.enterRate ≤ f
  · rw [if_pos hf, if_pos hf, if_pos le_rfl]
    refine ⟨_, ⟨h.ungated, zero_le_one, rfl, rfl, ?_, fun _ => ⟨_, rfl, ?_⟩, h.durations⟩,
      cuts_enter⟩
    · exact fun hfalse => by cases hfalse
    · simp [holding]
  · rw [if_neg hf, if_neg hf, if_neg (by omega)]
    exact ⟨none, ⟨h.ungated, h.nonneg, h.aged, h.inRegime, fun _ => rfl, h.inside, h.durations⟩,
      cuts_flat⟩

theorem Follows.step_in (h : Follows s r done cur) (hin : s.inPosition = true) :
    ∃ done' cur', Follows (s.decide f).2 (r.step s.p.enterRate s.p.exitRate f) done' cur' ∧
      Cuts k ((s.decide f).1, f) done done' cur cur' := by
  have hage : 0 < s.age := by
    have haged := h.aged
    have hnonneg := h.nonneg
    rw [hin] at haged
    have hne : s.age ≠ 0 := by simpa using haged.symm
    omega
  obtain ⟨sp, rfl, hdur⟩ := h.inside hin
  rw [RegimeState.step, h.inRegime, if_neg (by simp [hin])]
  by_cases hf : f < s.p.exitRate
  · rw [FundingCarrySignal.decide_exit hin hage.ne' hf, if_pos hf]
    refine ⟨done ++ [sp.close (.exit, f)], none,
      ⟨h.ungated, le_rfl, rfl, rfl, fun _ => rfl, ?_, ?_⟩, cuts_exit⟩
    · exact fun htrue => by cases htrue
    · simp [h.durations, hdur, holding]
  · rw [FundingCarrySignal.decide_hold hin hage hf, if_neg hf]
    have hage' : 0 < s.age + 1 := by omega
    refine ⟨done, some (sp.push (.hold, f)),
      ⟨h.ungated, hage'.le, ?_, rfl, ?_, fun _ => ⟨_, rfl, ?_⟩, h.durations⟩, cuts_hold⟩
    · simp [hin, hage'.ne']
    · intro hout
      rw [hin] at hout
      cases hout
    · rw [holding_push, ← hdur]

/-- Over a history: the regime the data ends in is censored there. -/
theorem Follows.run (history : List ℚ) : ∀ {s : FundingCarrySignal} {r : RegimeState} {k : ℕ}
    {done : List (Spell (Action × ℚ))} {cur : Option (Spell (Action × ℚ))},
    Follows s r done cur →
    (history.foldl (RegimeState.step s.p.enterRate s.p.exitRate) r).censor.durations =
      (done ++ spellsFrom decisionMark k cur (s.trace history)).map holding := by
  induction history with
  | nil =>
      intro s r k done cur h
      rw [List.foldl_nil, FundingCarrySignal.trace, spellsFrom_nil, RegimeState.censor, h.inRegime]
      cases hin : s.inPosition with
      | false =>
          rw [h.out hin, if_neg (by simp), Option.toList_none, List.append_nil, h.durations]
      | true =>
          obtain ⟨sp, rfl, hdur⟩ := h.inside hin
          rw [if_pos rfl, Option.toList_some, List.map_append, ← h.durations, hdur]
          rfl
  | cons f fs ih =>
      intro s r k done cur h
      rw [List.foldl_cons, FundingCarrySignal.trace]
      have hp := (s.decide_params f).1
      cases hin : s.inPosition with
      | false =>
          obtain ⟨cur', h', hcuts⟩ := h.step_out (f := f) (k := k) hin
          rw [hcuts, ← hp]
          rw [← hp] at h'
          exact ih h'
      | true =>
          obtain ⟨done', cur', h', hcuts⟩ := h.step_in (f := f) (k := k) hin
          rw [hcuts, ← hp]
          rw [← hp] at h'
          exact ih h'

end Persistence

/-! ## The three agree -/

/-- Over every history, the positions of the signal are those of the backtest; without
an age gate they last as long as the episodes. -/
theorem carry_engines_agree (p : FundingCarryParams) (minAge : ℤ) (roundTrip : ℚ)
    (breakevenIntervals : ℤ) (history : List ℚ) :
    let positions := ({ p, minAge } : FundingCarrySignal).positions history
    let result := backtestCarry history p.enterRate p.exitRate roundTrip minAge
    result.nPositions = positions.length ∧
      result.holds = positions.map holding ∧
      result.returns = positions.map (funding · - roundTrip) ∧
      result.totalFunding = (positions.map funding).sum ∧
      result.totalCost = positions.length * roundTrip ∧
      (minAge ≤ 1 → ∃ stats,
        fundingPersistence history p.enterRate p.exitRate breakevenIntervals = .ok stats ∧
        stats.durations = positions.map holding) := by
  intro positions result
  have hstart : Tracks roundTrip { p, minAge } {} [] none :=
    ⟨le_rfl, fun htrue => (by cases htrue), rfl, rfl, rfl, fun _ => ⟨rfl, rfl, rfl⟩,
      fun htrue => (by cases htrue), ⟨rfl, rfl, rfl, rfl⟩⟩
  have hbooked := Tracks.run (k := 0) history hstart
  have hreturns : result.returns = positions.map (funding · - roundTrip) := hbooked.returns
  refine ⟨?_, hbooked.holds, hreturns, hbooked.totalFunding, ?_, ?_⟩
  · rw [show result.nPositions = result.returns.length from rfl, hreturns, List.length_map]
  · have hn := hbooked.nCost
    rw [show result.totalCost = _ * roundTrip from rfl, hn]
    norm_cast
  · intro hage
    have hfollows : Follows { p, minAge } {} [] none :=
      ⟨hage, le_rfl, rfl, rfl, fun _ => rfl, fun htrue => (by cases htrue), rfl⟩
    rw [fundingPersistence, if_neg (not_lt.mpr p.hysteresis)]
    exact ⟨_, rfl, Follows.run (k := 0) history hfollows⟩

end Shadow

end TreasuryForge

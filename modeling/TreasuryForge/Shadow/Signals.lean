/-
# `Shadow.Signals` — when to enter and when to leave

The decision layer of `treasuryforge/signals/funding.py` and `treasuryforge/signals/basis.py`:
hysteresis on the funding rate, with the age of the episode of high funding, and on the premium.
-/
import Mathlib.Data.Rat.Defs
import Mathlib.Tactic.Common

namespace TreasuryForge

namespace Shadow

inductive Action where
  | enter
  | hold
  | exit
  | flat
  deriving DecidableEq, Repr

def Action.value : Action → String
  | .enter => "ENTER"
  | .hold => "HOLD"
  | .exit => "EXIT"
  | .flat => "FLAT"

/-- In position after the interval. -/
def Action.inside : Action → Bool
  | .enter => true
  | .hold => true
  | .exit => false
  | .flat => false

/-- The cost gate: an entry that is not allowed is undone. -/
def costGate {S : Type} (undo : S → S) (allowEntry : Bool) (decision : Action × S) : Action × S :=
  if decision.1 = .enter ∧ allowEntry = false then (.flat, undo decision.2) else decision

/-- What holds of a decision and of an undone one holds of what the gate lets through. -/
theorem costGate_keeps {S : Type} {P : Action → S → Prop} {undo : S → S} {decision : Action × S}
    (h : P decision.1 decision.2) (hundo : P .flat (undo decision.2)) (allowEntry : Bool) :
    P (costGate undo allowEntry decision).1 (costGate undo allowEntry decision).2 := by
  unfold costGate
  split
  · exact hundo
  · exact h

/-- What opening or closing costs: half the legs of a round trip. -/
def legsCost (legsRoundTrip : ℤ) (feePerLeg : ℚ) : ℚ := legsRoundTrip / 2 * feePerLeg

/-! ## Funding -/

structure FundingCarryParams where
  enterRate : ℚ
  exitRate : ℚ
  feePerLeg : ℚ
  legsRoundTrip : ℤ := 4
  hysteresis : exitRate ≤ enterRate

namespace FundingCarryParams

def entryCost (p : FundingCarryParams) : ℚ := legsCost p.legsRoundTrip p.feePerLeg

def exitCost (p : FundingCarryParams) : ℚ := legsCost p.legsRoundTrip p.feePerLeg

end FundingCarryParams

@[ext]
structure FundingCarrySignal where
  p : FundingCarryParams
  minAge : ℤ := 0
  inPosition : Bool := false
  age : ℤ := 0

namespace FundingCarrySignal

/-- An episode starts when funding crosses the entry rate, and ends below the exit rate. -/
def advanceAge (s : FundingCarrySignal) (fundingRate : ℚ) : FundingCarrySignal :=
  if s.age = 0 then
    if s.p.enterRate ≤ fundingRate then { s with age := 1 } else s
  else if fundingRate < s.p.exitRate then { s with age := 0 }
  else { s with age := s.age + 1 }

def decide (s : FundingCarrySignal) (fundingRate : ℚ) : Action × FundingCarrySignal :=
  let s := s.advanceAge fundingRate
  if s.inPosition then
    if s.age = 0 then (.exit, { s with inPosition := false }) else (.hold, s)
  else if max s.minAge 1 ≤ s.age then (.enter, { s with inPosition := true })
  else (.flat, s)

theorem advanceAge_params (s : FundingCarrySignal) (fundingRate : ℚ) :
    (s.advanceAge fundingRate).p = s.p ∧ (s.advanceAge fundingRate).minAge = s.minAge := by
  unfold advanceAge
  split
  · split <;> exact ⟨rfl, rfl⟩
  · split <;> exact ⟨rfl, rfl⟩

/-- The action tells whether the signal is in position after it. -/
theorem decide_inside (s : FundingCarrySignal) (fundingRate : ℚ) :
    (s.decide fundingRate).2.inPosition = (s.decide fundingRate).1.inside := by
  unfold decide
  dsimp only
  split
  · next hin =>
      split
      · rfl
      · exact hin
  · next hin =>
      split
      · rfl
      · exact Bool.eq_false_iff.mpr hin

theorem decide_params (s : FundingCarrySignal) (fundingRate : ℚ) :
    (s.decide fundingRate).2.p = s.p ∧ (s.decide fundingRate).2.minAge = s.minAge := by
  have hadvance := s.advanceAge_params fundingRate
  unfold decide
  dsimp only
  split
  · split <;> exact hadvance
  · split <;> exact hadvance

end FundingCarrySignal

/-! ## Basis -/

structure BasisParams where
  enterPremium : ℚ
  exitPremium : ℚ
  feePerLeg : ℚ
  legsRoundTrip : ℤ := 4
  hysteresis : exitPremium ≤ enterPremium

namespace BasisParams

def entryCost (p : BasisParams) : ℚ := legsCost p.legsRoundTrip p.feePerLeg

def exitCost (p : BasisParams) : ℚ := legsCost p.legsRoundTrip p.feePerLeg

end BasisParams

@[ext]
structure BasisSignal where
  p : BasisParams
  inPosition : Bool := false

namespace BasisSignal

def decide (s : BasisSignal) (premium : ℚ) : Action × BasisSignal :=
  if s.inPosition = false then
    if s.p.enterPremium ≤ premium then (.enter, { s with inPosition := true }) else (.flat, s)
  else if premium ≤ s.p.exitPremium then (.exit, { s with inPosition := false })
  else (.hold, s)

theorem decide_inside (s : BasisSignal) (premium : ℚ) :
    (s.decide premium).2.inPosition = (s.decide premium).1.inside := by
  unfold decide
  split
  · next hin =>
      split
      · rfl
      · exact hin
  · next hin =>
      split
      · rfl
      · exact eq_true_of_ne_false hin

theorem decide_params (s : BasisSignal) (premium : ℚ) : (s.decide premium).2.p = s.p := by
  unfold decide
  split
  · split <;> rfl
  · split <;> rfl

end BasisSignal

end Shadow

end TreasuryForge

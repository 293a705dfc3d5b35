/-
# `Live.ScalpBook` — the paper book of the scalp rule

`ScalpBook` of `treasuryforge/scalp_shadow.py`, with the entry rule of
`signals/momentum.py`.  The book sees one bar at a time and says what the rule does
with it; whether money follows is decided elsewhere.  `observe_cases` is what the
rest of the development uses: an ENTER takes a flat book into a position, an EXIT
takes it out, and nothing else moves it.
-/
import Mathlib.Algebra.Order.Field.Rat
import Mathlib.Data.Rat.Defs

namespace TreasuryForge

structure MomentumParams where
  enter1m : ℚ := 1 / 100
  confirm1m : ℚ := 0
  trailFrac : ℚ := 4 / 100
  stopFrac : ℚ := 5 / 100
  maxHold : ℤ := 240
  cost : ℚ := 13 / 10000
  deriving DecidableEq, Repr

/-- A bar of the series; its open is never read. -/
structure Bar where
  high : ℚ
  low : ℚ
  close : ℚ
  deriving DecidableEq, Repr, Inhabited

/-- Ignition and follow-through. -/
def entryOk (prev2Close prevClose close : ℚ) (p : MomentumParams) : Bool :=
  if prev2Close ≤ 0 ∨ prevClose ≤ 0 then false
  else p.enter1m ≤ close / prevClose - 1 ∧ p.confirm1m ≤ prevClose / prev2Close - 1

inductive Action where
  | flat
  | hold
  | enter
  | exitStop
  | exitTrail
  | exitTime
  deriving DecidableEq, Repr

namespace Action

def value : Action → String
  | .flat => "FLAT"
  | .hold => "HOLD"
  | .enter => "ENTER"
  | .exitStop => "EXIT_STOP"
  | .exitTrail => "EXIT_TRAIL"
  | .exitTime => "EXIT_TIME"

/-- `action.startswith("EXIT")` -/
def isExit : Action → Bool
  | .exitStop | .exitTrail | .exitTime => true
  | _ => false

end Action

structure ScalpBook where
  params : MomentumParams := {}
  inPos : Bool := false
  entry : ℚ := 0
  peak : ℚ := 0
  barsHeld : ℤ := 0
  prev : ℚ := 0
  prev2 : ℚ := 0
  deriving DecidableEq, Repr

namespace ScalpBook

def flatten (b : ScalpBook) : ScalpBook :=
  { b with inPos := false, entry := 0, peak := 0, barsHeld := 0 }

/-- The bar's close becomes the previous one. -/
def shift (b : ScalpBook) (close : ℚ) : ScalpBook := { b with prev2 := b.prev, prev := close }

/-- The action and the net return of one bar; `none` for the division by a previous
close of zero, which leaves the book where it was in the middle of the bar. -/
def observe (b : ScalpBook) (high low close : ℚ) : Option (Action × ℚ) × ScalpBook :=
  let halfCost := b.params.cost / 2
  if b.inPos then
    let b := { b with barsHeld := b.barsHeld + 1 }
    let trailLevel := b.peak * (1 - b.params.trailFrac)
    let stopLevel := b.entry * (1 - b.params.stopFrac)
    let mtm := if 0 < b.prev then close / b.prev - 1 else 0
    if low ≤ stopLevel ∧ stopLevel ≤ trailLevel then
      if b.prev = 0 then (none, b)
      else (some (.exitStop, stopLevel / b.prev - 1 - halfCost), b.flatten.shift close)
    else if low ≤ trailLevel then
      if b.prev = 0 then (none, b)
      else (some (.exitTrail, trailLevel / b.prev - 1 - halfCost), b.flatten.shift close)
    else if b.params.maxHold ≤ b.barsHeld then
      (some (.exitTime, mtm - halfCost), b.flatten.shift close)
    else (some (.hold, mtm), { b with peak := max b.peak high }.shift close)
  else if entryOk b.prev2 b.prev close b.params then
    (some (.enter, -halfCost),
      { b with inPos := true, entry := close, peak := close, barsHeld := 0 }.shift close)
  else (some (.flat, 0), b.shift close)

/-- What a bar does to the position, by the action it is answered with. -/
theorem observe_cases (b : ScalpBook) (high low close : ℚ) :
    (∃ r, (b.observe high low close).1 = some (.enter, r) ∧ b.inPos = false ∧
      (b.observe high low close).2.inPos = true) ∨
    (∃ a r, (b.observe high low close).1 = some (a, r) ∧ a.isExit = true ∧ b.inPos = true ∧
      (b.observe high low close).2.inPos = false) ∨
    ((∀ a r, (b.observe high low close).1 = some (a, r) → a = .hold ∨ a = .flat) ∧
      (b.observe high low close).2.inPos = b.inPos) := by
  have hnone : ∀ a r, (none : Option (Action × ℚ)) = some (a, r) → a = .hold ∨ a = .flat :=
    fun _ _ e => nomatch e
  unfold observe
  by_cases hpos : b.inPos = true
  · simp only [if_pos hpos]
    split
    · split
      · exact Or.inr (Or.inr ⟨hnone, rfl⟩)
      · exact Or.inr (Or.inl ⟨.exitStop, _, rfl, rfl, hpos, rfl⟩)
    · split
      · split
        · exact Or.inr (Or.inr ⟨hnone, rfl⟩)
        · exact Or.inr (Or.inl ⟨.exitTrail, _, rfl, rfl, hpos, rfl⟩)
      · split
        · exact Or.inr (Or.inl ⟨.exitTime, _, rfl, rfl, hpos, rfl⟩)
        · refine Or.inr (Or.inr ⟨fun a r e => ?_, rfl⟩)
          cases e
          exact Or.inl rfl
  · simp only [if_neg hpos]
    have hflat : b.inPos = false := by simpa using hpos
    split
    · exact Or.inl ⟨_, rfl, hflat, rfl⟩
    · refine Or.inr (Or.inr ⟨fun a r e => ?_, rfl⟩)
      cases e
      exact Or.inr rfl

end ScalpBook

end TreasuryForge

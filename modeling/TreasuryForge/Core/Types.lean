/-
# `Core.Types` — the value objects

Ticks, intents, verdicts and fills (`treasuryforge/types.py`), over exact
rationals where the source has floats.  All are immutable records.  `Side.value`
and `Side.ofValue` are the string values of the `Side` enumeration, which is what
a fill turns into when it is written to disk.
-/
import Mathlib.Data.Rat.Defs
import Mathlib.Algebra.Order.Ring.Rat

namespace TreasuryForge

inductive Side where
  | buy
  | sell
  deriving DecidableEq, Repr

namespace Side

def value : Side → String
  | .buy => "BUY"
  | .sell => "SELL"

/-- `Side(s)`; fails on a string that is no member's value. -/
def ofValue (s : String) : Option Side :=
  if s = "BUY" then some .buy else if s = "SELL" then some .sell else none

@[simp] theorem ofValue_value (s : Side) : ofValue s.value = some s := by
  cases s <;> decide

end Side

inductive OrderType where
  | market
  | limit
  deriving DecidableEq, Repr

/-- One observation of the market. -/
structure MarketTick where
  symbol : String
  price : ℚ
  ts : ℤ
  deriving DecidableEq, Repr

/-- What the agent wants to do. -/
structure Intent where
  symbol : String
  side : Side
  baseAmount : ℚ
  reason : String := ""
  orderType : OrderType := .market
  limitPrice : Option ℚ := none
  quoteAmount : Option ℚ := none
  deriving DecidableEq, Repr

/-- Quote value of the intent at a price. -/
def Intent.notional (i : Intent) (price : ℚ) : ℚ :=
  match i.quoteAmount with
  | some q => |q|
  | none => |i.baseAmount| * price

/-- The policy engine's ruling on an intent. -/
structure Verdict where
  allowed : Bool
  reason : String
  deriving DecidableEq, Repr

/-- A completed execution. -/
structure Fill where
  symbol : String
  side : Side
  baseAmount : ℚ
  price : ℚ
  fee : ℚ
  ts : ℤ
  feeCurrency : String := "quote"
  deriving DecidableEq, Repr

namespace Fill

/-- Signed change to the quote balance. -/
def quoteDelta (f : Fill) : ℚ :=
  let gross := f.baseAmount * f.price
  let quoteFee := if f.feeCurrency = "quote" then f.fee else 0
  if f.side = .buy then -(gross + quoteFee) else gross - quoteFee

/-- Signed change to the base balance. -/
def baseDelta (f : Fill) : ℚ :=
  let baseFee := if f.feeCurrency = "base" then f.fee else 0
  if f.side = .buy then f.baseAmount - baseFee else -f.baseAmount

end Fill

end TreasuryForge

/-
# `Core.Executor` — the simulated executor

`treasuryforge/executor.py`.  `Executor` is the interface the runner talks to, an
arbitrary state machine that turns an approved intent into a fill or raises for lack of
funds; the wallet is handed to it, and is in either case as it leaves it.  `SimExecutor` fills at the tick price
moved against the trader by the slippage; the price and the fee it reports are
rounded to six decimals, and the fill's amount is the intent's `baseAmount`,
whatever `quoteAmount` says.
-/
import TreasuryForge.Core.Wallet

namespace TreasuryForge

/-- `execute`, with the executor's own state. -/
structure Executor (X : Type) where
  execute : X → Intent → MarketTick → SimWallet → Except InsufficientFunds Fill × SimWallet × X

structure SimExecutor where
  feeRate : ℚ := 1 / 1000
  slippageBps : ℚ := 5
  deriving Repr

namespace SimExecutor

/-- Slippage as a fraction. -/
def slip (x : SimExecutor) : ℚ := x.slippageBps / 10000

/-- The price after slippage: up for a buy, down for a sell. -/
def slipped (x : SimExecutor) (side : Side) (price : ℚ) : ℚ :=
  if side = .buy then price * (1 + x.slip) else price * (1 - x.slip)

/-- The reported price. -/
def fillPrice (x : SimExecutor) (side : Side) (price : ℚ) : ℚ :=
  Decimal.quantize (x.slipped side price) 6

/-- The reported fee. -/
def fillFee (x : SimExecutor) (side : Side) (price base : ℚ) : ℚ :=
  Decimal.quantize (base * x.slipped side price * x.feeRate) 6

def fill (x : SimExecutor) (intent : Intent) (tick : MarketTick) : Fill where
  symbol := intent.symbol
  side := intent.side
  baseAmount := intent.baseAmount
  price := x.fillPrice intent.side tick.price
  fee := x.fillFee intent.side tick.price intent.baseAmount
  ts := tick.ts

def execute (x : SimExecutor) (intent : Intent) (tick : MarketTick) (wallet : SimWallet) :
    Except InsufficientFunds (Fill × SimWallet) :=
  let fill := x.fill intent tick
  match wallet.applyFill fill with
  | .ok wallet' => .ok (fill, wallet')
  | .error e => .error e

/-- The simulated executor keeps no state. -/
def toExecutor (x : SimExecutor) : Executor Unit where
  execute _ intent tick wallet :=
    match x.execute intent tick wallet with
    | .ok (fill, wallet') => (.ok fill, wallet', ())
    | .error e => (.error e, wallet, ())

theorem execute_ok {x : SimExecutor} {intent : Intent} {tick : MarketTick} {w w' : SimWallet}
    {f : Fill} : x.execute intent tick w = .ok (f, w') ↔
      f = x.fill intent tick ∧ w.applyFill (x.fill intent tick) = .ok w' := by
  simp only [execute]
  cases w.applyFill (x.fill intent tick) with
  | error e => simp
  | ok w₁ => simp [eq_comm]

/-- Seen as an executor: it fills as above, or raises and leaves the wallet alone. -/
theorem toExecutor_execute {x : SimExecutor} {u u' : Unit} {intent : Intent} {tick : MarketTick}
    {w w' : SimWallet} {result : Except InsufficientFunds Fill}
    (h : x.toExecutor.execute u intent tick w = (result, w', u')) :
    (∃ f, result = .ok f ∧ x.execute intent tick w = .ok (f, w')) ∨
    (∃ e, result = .error e ∧ w' = w) := by
  simp only [toExecutor] at h
  cases hx : x.execute intent tick w with
  | ok p =>
      rw [hx] at h
      cases h
      exact Or.inl ⟨_, rfl, rfl⟩
  | error e =>
      rw [hx] at h
      cases h
      exact Or.inr ⟨_, rfl, rfl⟩

theorem slipped_pos {x : SimExecutor} {side : Side} {price : ℚ} (hp : 0 < price)
    (h₀ : 0 ≤ x.slip) (h₁ : x.slip < 1) : 0 < x.slipped side price := by
  unfold slipped
  split
  · exact mul_pos hp (by linarith)
  · exact mul_pos hp (by linarith)

theorem fillFee_nonneg {x : SimExecutor} {side : Side} {price base : ℚ} (hp : 0 < price)
    (h₀ : 0 ≤ x.slip) (h₁ : x.slip < 1) (hf : 0 ≤ x.feeRate) (hb : 0 ≤ base) :
    0 ≤ x.fillFee side price base :=
  Decimal.quantize_nonneg 6 (mul_nonneg (mul_nonneg hb (slipped_pos hp h₀ h₁).le) hf)

end SimExecutor

end TreasuryForge

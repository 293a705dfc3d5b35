/-
# `Core.Rounding` — an approved intent and the rounding of its fill

Rule 8 of the policy engine checks the exact cost of an intent; the simulated executor
rounds price and fee to six decimals, and the wallet refuses what the rounded fill
overdraws by more than `1e-9`.  At the tick the intent was approved at, and without
slippage, rounding is all that lies between the two: `abs_loss_le` is how much it takes at most,
and `approved_fills_of_spare` that an intent which leaves that much is filled.
-/
import TreasuryForge.Core.Executor
import TreasuryForge.Core.Policy

namespace TreasuryForge

/-- The executor of a backtest under this configuration, without slippage. -/
def PolicyConfig.executor (cfg : PolicyConfig) : SimExecutor :=
  { feeRate := cfg.feeRate, slippageBps := 0 }

namespace Rounding

variable (feeRate : ℚ) (intent : Intent) (tick : MarketTick) (wallet : SimWallet)

/-- The fee before it is rounded. -/
def exactFee : ℚ := intent.baseAmount * tick.price * feeRate

/-- The quote the trade would leave at the exact price and fee. -/
def exactQuote : ℚ :=
  let gross := intent.baseAmount * tick.price
  wallet.quote + (if intent.side = .buy then -gross else gross) - exactFee feeRate intent tick

/-- What rounding takes from the trader: a higher price to pay or a lower one to get, and a
higher fee. -/
def loss : ℚ :=
  let moved := Decimal.quantize tick.price 6 - tick.price
  let fee := exactFee feeRate intent tick
  (if intent.side = .buy then intent.baseAmount * moved else -(intent.baseAmount * moved)) +
    (Decimal.quantize fee 6 - fee)

/-- A part in 10^12 of what the wallet has and the trade moves: room for the rounding of binary
fractions, which is not modelled. -/
def ulps : ℚ :=
  (|wallet.quote| + |intent.baseAmount * tick.price| * (1 + |feeRate|)) / 10 ^ 12

/-- The exact trade leaves half a unit of the last decimal for each unit of base and for the fee,
and leaves no debt in its base. -/
def Spare : Prop :=
  (|intent.baseAmount| + 1) / (2 * 10 ^ 6) + ulps feeRate intent tick wallet ≤
      exactQuote feeRate intent tick wallet ∧
    -eps ≤ wallet.baseBalance intent.symbol +
      if intent.side = .buy then intent.baseAmount else -intent.baseAmount

instance : Decidable (Spare feeRate intent tick wallet) := by
  unfold Spare
  infer_instance

variable {feeRate intent tick wallet} {e : PolicyEngine} {age : Option ℤ}

/-- The quote after the rounded fill. -/
theorem quote_after (hf : feeRate = e.config.feeRate) :
    wallet.quote + (e.config.executor.fill intent tick).quoteDelta =
      exactQuote feeRate intent tick wallet - loss feeRate intent tick := by
  subst hf
  have hslipped : ∀ side, e.config.executor.slipped side tick.price = tick.price := by
    intro side
    simp [SimExecutor.slipped, SimExecutor.slip, PolicyConfig.executor]
  have hprice : (e.config.executor.fill intent tick).price = Decimal.quantize tick.price 6 := by
    simp only [SimExecutor.fill, SimExecutor.fillPrice, hslipped]
  have hfee : (e.config.executor.fill intent tick).fee =
      Decimal.quantize (exactFee e.config.feeRate intent tick) 6 := by
    simp only [SimExecutor.fill, SimExecutor.fillFee, hslipped]
    rfl
  have hside : (e.config.executor.fill intent tick).side = intent.side := rfl
  have hbase : (e.config.executor.fill intent tick).baseAmount = intent.baseAmount := rfl
  have hcurrency : (e.config.executor.fill intent tick).feeCurrency = "quote" := rfl
  rw [Fill.quoteDelta, hprice, hfee, hside, hbase, hcurrency, exactQuote, loss]
  cases intent.side with
  | buy =>
      simp only [if_true]
      ring
  | sell =>
      simp only [if_true, reduceCtorEq, if_false]
      ring

theorem base_after : wallet.baseBalance intent.symbol +
      (e.config.executor.fill intent tick).baseDelta =
    wallet.baseBalance intent.symbol +
      (if intent.side = .buy then intent.baseAmount else -intent.baseAmount) := by
  have hcurrency : (e.config.executor.fill intent tick).feeCurrency = "quote" := rfl
  rw [Fill.baseDelta, hcurrency]
  cases h : intent.side with
  | buy => simp [SimExecutor.fill, h]
  | sell => simp [SimExecutor.fill, h]

/-! ## How much rounding takes -/

/-- Half a unit of the last decimal, for the fee and for each unit of base. -/
theorem abs_loss_le : |loss feeRate intent tick| ≤ (|intent.baseAmount| + 1) / (2 * 10 ^ 6) := by
  have hprice := Decimal.abs_quantize_sub_le tick.price 6
  have hfee := Decimal.abs_quantize_sub_le (exactFee feeRate intent tick) 6
  have hmoved : |intent.baseAmount * (Decimal.quantize tick.price 6 - tick.price)| ≤
      |intent.baseAmount| * (1 / (2 * 10 ^ 6)) := by
    rw [abs_mul]
    exact mul_le_mul_of_nonneg_left hprice (abs_nonneg _)
  have hsplit : (|intent.baseAmount| + 1) / (2 * 10 ^ 6) =
      |intent.baseAmount| * (1 / (2 * 10 ^ 6)) + 1 / (2 * 10 ^ 6) := by
    ring
  rw [hsplit, loss]
  refine (abs_add_le _ _).trans (add_le_add ?_ hfee)
  split
  · exact hmoved
  · rw [abs_neg]
    exact hmoved

variable (feeRate intent tick wallet) in
theorem ulps_nonneg : 0 ≤ ulps feeRate intent tick wallet := by
  unfold ulps
  positivity

/-- An approved intent that leaves what rounding may take is filled at the tick it was approved
at. -/
theorem approved_fills_of_spare (hspare : Spare e.config.feeRate intent tick wallet) :
    (e.evaluate intent tick wallet age).1.allowed = true →
      ∃ out, e.config.executor.execute intent tick wallet = .ok out := by
  -- the approval asks for the same balances with nothing to spare
  intro _
  obtain ⟨hleft, hdebt⟩ := hspare
  have hloss : loss e.config.feeRate intent tick ≤ (|intent.baseAmount| + 1) / (2 * 10 ^ 6) :=
    (le_abs_self _).trans abs_loss_le
  have hulps := ulps_nonneg e.config.feeRate intent tick wallet
  have heps : (0 : ℚ) < eps := by norm_num [eps]
  have hquote : -eps ≤ wallet.quote + (e.config.executor.fill intent tick).quoteDelta := by
    rw [quote_after rfl]
    linarith
  have hbase : -eps ≤ wallet.baseBalance intent.symbol +
      (e.config.executor.fill intent tick).baseDelta := by
    rw [base_after]
    exact hdebt
  exact ⟨_, SimExecutor.execute_ok.mpr ⟨rfl, SimWallet.applyFill_ok.mpr ⟨hquote, hbase, rfl⟩⟩⟩

/-! ## A wallet spent to the last unit -/

/-- 0.0155555 BTC at 100 under a fee of a thousandth cost 1.55710555. -/
def lastUnit : Intent := { symbol := "BTC", side := .buy, baseAmount := 155555 / 10 ^ 7 }

def lastUnitEngine : PolicyEngine := { config := {
  allowedSymbols := ["BTC"], maxNotionalPerTx := 200, maxTxPerWindow := 5, windowSteps := 10,
  maxDrawdownPct := 1 / 2, feeRate := 1 / 1000 } }

theorem approved_fills_of_spare_two : ∃ out,
    lastUnitEngine.config.executor.execute lastUnit ⟨"BTC", 100, 0⟩ { quote := 2 } = .ok out :=
  have hallow : (lastUnitEngine.evaluate lastUnit ⟨"BTC", 100, 0⟩ { quote := 2 }
    none).1.allowed = true := by decide +kernel
  approved_fills_of_spare (by decide +kernel) hallow

/-- The fee is rounded up, and the wallet that holds the exact cost is overdrawn. -/
theorem approved_not_filled :
    (lastUnitEngine.evaluate lastUnit ⟨"BTC", 100, 0⟩ { quote := 155710555 / 10 ^ 8 }
      none).1.allowed = true ∧
    ¬ ∃ out, lastUnitEngine.config.executor.execute lastUnit ⟨"BTC", 100, 0⟩
      { quote := 155710555 / 10 ^ 8 } = .ok out := by
  refine ⟨by decide +kernel, ?_⟩
  rintro ⟨out, hout⟩
  have hraised : (lastUnitEngine.config.executor.execute lastUnit ⟨"BTC", 100, 0⟩
      { quote := 155710555 / 10 ^ 8 }).isOk = false := by
    decide +kernel
  rw [hout] at hraised
  cases hraised

end Rounding

end TreasuryForge

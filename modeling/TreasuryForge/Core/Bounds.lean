/-
# `Core.Bounds` — what a settled fill can do to the wallet

The two promises of the simulated core about a single fill, over whole runs of
`Runner`: that it moves the wallet the way its side says and creates no value
(`Frictional`), and that it is not larger than the policy's cap.

Neither holds of every intent the policy lets through.  `SimExecutor` fills
`baseAmount` as it stands, negative as well as positive, reports a price and a fee
rounded to six decimals, and does not look at `quoteAmount`, which is what the policy
measures when it is there.  `frictional_of_spare` says for which intents, prices, costs
and balances the first promise is kept, `within_cap_of_measured` for which intents the
second.
-/
import Mathlib.Tactic.Linarith
import Mathlib.Tactic.NormNum
import TreasuryForge.Core.Runner

namespace TreasuryForge

/-! ## One fill -/

namespace Settlement

/-- The wallet moves in the direction of the side, the fee is not negative, and the
equity marked at the fill's tick does not grow. -/
structure Frictional (σ : Settlement) : Prop where
  buy : σ.intent.side = .buy →
    σ.before.baseBalance σ.intent.symbol ≤ σ.after.baseBalance σ.intent.symbol ∧
      σ.after.quote ≤ σ.before.quote
  sell : σ.intent.side = .sell →
    σ.after.baseBalance σ.intent.symbol ≤ σ.before.baseBalance σ.intent.symbol ∧
      σ.before.quote ≤ σ.after.quote
  fee : 0 ≤ σ.fill.fee
  equity : σ.after.equity σ.tick.prices ≤ σ.before.equity σ.tick.prices

/-- The executor filled the intent from this wallet. -/
structure By (x : SimExecutor) (σ : Settlement) : Prop where
  fill : σ.fill = x.fill σ.intent σ.tick
  applied : σ.before.applyFill σ.fill = .ok σ.after
  solvent : σ.before.Solvent
  price : 0 < σ.tick.price

end Settlement

/-- What rounding a price and a fee to six decimals can give away over a purchase or a sale
of `b`: half a unit of the last decimal for each unit of base, and for the fee. -/
def roundingSlack (b : ℚ) : ℚ := (b + 1) / (2 * 10 ^ 6)

/-- A part in 10^12 of what the wallet is worth at a price with `b` more: room for the rounding of
binary fractions, which is not modelled. -/
def SimWallet.ulps (w : SimWallet) (symbol : String) (price b : ℚ) : ℚ :=
  (w.quote + (w.baseBalance symbol + b) * price) / 10 ^ 12

/-- The intent trades nothing, or an amount the wallet has of the tick's own symbol, and slippage
and fee take more of it than rounding can give back. -/
def SimExecutor.Spare (x : SimExecutor) (intent : Intent) (tick : MarketTick) (w : SimWallet) :
    Prop :=
  let b := intent.baseAmount
  let gross := b * tick.price
  let room := roundingSlack b + w.ulps intent.symbol tick.price b
  b = 0 ∨ 0 < b ∧ intent.symbol = tick.symbol ∧
    match intent.side with
    | .buy =>
        gross + w.ulps intent.symbol tick.price b ≤ w.quote ∧
          room ≤ gross * ((1 + x.slip) * (1 + x.feeRate) - 1)
    | .sell =>
        b ≤ w.baseBalance intent.symbol ∧
          room ≤ gross * (1 - (1 - x.slip) * (1 - x.feeRate)) ∧
          room ≤ gross * ((1 - x.slip) * (1 - x.feeRate))

instance (x : SimExecutor) (intent : Intent) (tick : MarketTick) (w : SimWallet) :
    Decidable (x.Spare intent tick w) := by
  unfold SimExecutor.Spare
  cases intent.side with
  | buy => infer_instance
  | sell => infer_instance

section Rounded
variable {x : SimExecutor} {side : Side} {price b : ℚ}

theorem fillPrice_close (x : SimExecutor) (side : Side) (price : ℚ) :
    |x.fillPrice side price - x.slipped side price| ≤ 1 / (2 * 10 ^ 6) :=
  Decimal.abs_quantize_sub_le _ 6

theorem fillFee_close (x : SimExecutor) (side : Side) (price b : ℚ) :
    |x.fillFee side price b - b * x.slipped side price * x.feeRate| ≤ 1 / (2 * 10 ^ 6) :=
  Decimal.abs_quantize_sub_le _ 6

/-- What a purchase costs after rounding is what it costs before, less the slack at most. -/
theorem cost_ge (hb : 0 ≤ b) : b * x.slipped side price * (1 + x.feeRate) - roundingSlack b ≤
    b * x.fillPrice side price + x.fillFee side price b := by
  have hprice := (abs_le.mp (fillPrice_close x side price)).1
  have hfee := (abs_le.mp (fillFee_close x side price b)).1
  have hscaled := mul_le_mul_of_nonneg_left hprice hb
  rw [roundingSlack]
  linarith

/-- What a sale brings after rounding is what it brings before, but for the slack. -/
theorem abs_proceeds_le (hb : 0 ≤ b) :
    |b * x.fillPrice side price - x.fillFee side price b -
      b * x.slipped side price * (1 - x.feeRate)| ≤ roundingSlack b := by
  obtain ⟨hprice, hprice'⟩ := abs_le.mp (fillPrice_close x side price)
  obtain ⟨hfee, hfee'⟩ := abs_le.mp (fillFee_close x side price b)
  have hlow := mul_le_mul_of_nonneg_left hprice hb
  have hhigh := mul_le_mul_of_nonneg_left hprice' hb
  rw [roundingSlack, abs_le]
  constructor
  · linarith
  · linarith

end Rounded

namespace Settlement

variable {x : SimExecutor} {σ : Settlement}

/-- The wallet after the fill. -/
theorem By.after (h : By x σ) :
    let f := x.fill σ.intent σ.tick
    σ.after = { quote := max (σ.before.quote + f.quoteDelta) 0,
                positions := σ.before.positions.set σ.intent.symbol
                  (max (σ.before.baseBalance σ.intent.symbol + f.baseDelta) 0) } := by
  have hok := h.applied
  rw [h.fill] at hok
  exact (SimWallet.applyFill_ok.mp hok).2.2

/-- The mark of the intent's symbol at its tick. -/
def mark (σ : Settlement) : ℚ := if σ.intent.symbol = σ.tick.symbol then σ.tick.price else 0

theorem By.buy (h : By x σ) (hs : σ.intent.side = .buy) :
    σ.after.quote = max (σ.before.quote - (σ.intent.baseAmount * x.fillPrice .buy σ.tick.price +
      x.fillFee .buy σ.tick.price σ.intent.baseAmount)) 0 ∧
    σ.after.baseBalance σ.intent.symbol =
      max (σ.before.baseBalance σ.intent.symbol + σ.intent.baseAmount) 0 ∧
    σ.fill.fee = x.fillFee .buy σ.tick.price σ.intent.baseAmount := by
  refine ⟨?_, ?_, ?_⟩
  · rw [h.after]
    simp [SimExecutor.fill, Fill.quoteDelta, hs, sub_eq_add_neg]
  · rw [h.after, SimWallet.baseBalance_set]
    simp [SimExecutor.fill, Fill.baseDelta, hs]
  · rw [h.fill]
    simp [SimExecutor.fill, hs]

theorem By.sell (h : By x σ) (hs : σ.intent.side = .sell) :
    σ.after.quote = max (σ.before.quote + (σ.intent.baseAmount * x.fillPrice .sell σ.tick.price -
      x.fillFee .sell σ.tick.price σ.intent.baseAmount)) 0 ∧
    σ.after.baseBalance σ.intent.symbol =
      max (σ.before.baseBalance σ.intent.symbol - σ.intent.baseAmount) 0 ∧
    σ.fill.fee = x.fillFee .sell σ.tick.price σ.intent.baseAmount := by
  refine ⟨?_, ?_, ?_⟩
  · rw [h.after]
    simp [SimExecutor.fill, Fill.quoteDelta, hs]
  · rw [h.after, SimWallet.baseBalance_set]
    simp [SimExecutor.fill, Fill.baseDelta, hs, sub_eq_add_neg]
  · rw [h.fill]
    simp [SimExecutor.fill, hs]

theorem By.equity_iff (h : By x σ) : σ.after.equity σ.tick.prices ≤ σ.before.equity σ.tick.prices ↔
    σ.after.quote - σ.before.quote + (σ.after.baseBalance σ.intent.symbol -
      σ.before.baseBalance σ.intent.symbol) * σ.mark ≤ 0 := by
  rw [h.after, SimWallet.equity_set, SimWallet.baseBalance_set, SimWallet.prices_getD, mark]
  constructor
  · intro he; linarith
  · intro he; linarith

/-- A fill of nothing. -/
theorem By.frictional_zero (h : By x σ) (hzero : σ.intent.baseAmount = 0) : σ.Frictional := by
  have hQ := h.solvent.quote
  have hB := h.solvent.baseBalance σ.intent.symbol
  have hfee : σ.fill.fee = 0 := by
    rw [h.fill]
    simp [SimExecutor.fill, SimExecutor.fillFee, hzero, Decimal.quantize, Decimal.roundEven]
  have hquote : σ.after.quote = σ.before.quote := by
    rw [h.after]
    simp [SimExecutor.fill, Fill.quoteDelta, SimExecutor.fillFee, hzero, Decimal.quantize,
      Decimal.roundEven, hQ]
  have hbase : σ.after.baseBalance σ.intent.symbol = σ.before.baseBalance σ.intent.symbol := by
    rw [h.after, SimWallet.baseBalance_set]
    simp [SimExecutor.fill, Fill.baseDelta, hzero, hB]
  refine ⟨fun _ => ⟨hbase.ge, hquote.le⟩, fun _ => ⟨hbase.le, hquote.ge⟩, hfee.ge, ?_⟩
  rw [h.equity_iff, hquote, hbase]
  simp

/-- A purchase with room to spare. -/
theorem By.frictional_buy (h : By x σ) (h₀ : 0 ≤ x.slip) (h₁ : x.slip < 1) (hf : 0 ≤ x.feeRate)
    (hside : σ.intent.side = .buy) (hb : 0 ≤ σ.intent.baseAmount)
    (hsymbol : σ.intent.symbol = σ.tick.symbol)
    (hpaid : σ.intent.baseAmount * σ.tick.price ≤ σ.before.quote)
    (hroom : roundingSlack σ.intent.baseAmount ≤
      σ.intent.baseAmount * σ.tick.price * ((1 + x.slip) * (1 + x.feeRate) - 1)) :
    σ.Frictional := by
  have hQ := h.solvent.quote
  have hB := h.solvent.baseBalance σ.intent.symbol
  obtain ⟨hquote, hbase, hfee⟩ := h.buy hside
  have hmark : σ.mark = σ.tick.price := if_pos hsymbol
  have hgross : 0 ≤ σ.intent.baseAmount * σ.tick.price := mul_nonneg hb h.price.le
  have hcost : σ.intent.baseAmount * x.slipped .buy σ.tick.price * (1 + x.feeRate) -
      roundingSlack σ.intent.baseAmount ≤ σ.intent.baseAmount * x.fillPrice .buy σ.tick.price +
        x.fillFee .buy σ.tick.price σ.intent.baseAmount := cost_ge hb
  have hslipped : x.slipped .buy σ.tick.price = σ.tick.price * (1 + x.slip) := if_pos rfl
  rw [hslipped] at hcost
  -- the rounded cost is the mark of what is bought, at least
  have hcovers : σ.intent.baseAmount * σ.tick.price ≤
      σ.intent.baseAmount * x.fillPrice .buy σ.tick.price +
        x.fillFee .buy σ.tick.price σ.intent.baseAmount := by linarith
  rw [max_eq_left (add_nonneg hB hb)] at hbase
  have hspent : σ.after.quote ≤ σ.before.quote - σ.intent.baseAmount * σ.tick.price := by
    rw [hquote]
    exact max_le (by linarith) (by linarith)
  refine ⟨fun _ => ⟨by linarith, by linarith⟩, fun e => (nomatch hside.symm.trans e), ?_, ?_⟩
  · rw [hfee]
    exact SimExecutor.fillFee_nonneg h.price h₀ h₁ hf hb
  · rw [h.equity_iff, hmark, hbase]
    linarith

/-- A sale with room to spare. -/
theorem By.frictional_sell (h : By x σ) (h₀ : 0 ≤ x.slip) (h₁ : x.slip < 1) (hf : 0 ≤ x.feeRate)
    (hside : σ.intent.side = .sell) (hb : 0 ≤ σ.intent.baseAmount)
    (hsymbol : σ.intent.symbol = σ.tick.symbol)
    (hheld : σ.intent.baseAmount ≤ σ.before.baseBalance σ.intent.symbol)
    (hroom : roundingSlack σ.intent.baseAmount ≤
      σ.intent.baseAmount * σ.tick.price * (1 - (1 - x.slip) * (1 - x.feeRate)))
    (hnet : roundingSlack σ.intent.baseAmount ≤
      σ.intent.baseAmount * σ.tick.price * ((1 - x.slip) * (1 - x.feeRate))) :
    σ.Frictional := by
  have hQ := h.solvent.quote
  obtain ⟨hquote, hbase, hfee⟩ := h.sell hside
  have hmark : σ.mark = σ.tick.price := if_pos hsymbol
  have hproceeds : |σ.intent.baseAmount * x.fillPrice .sell σ.tick.price -
      x.fillFee .sell σ.tick.price σ.intent.baseAmount -
      σ.intent.baseAmount * x.slipped .sell σ.tick.price * (1 - x.feeRate)| ≤
        roundingSlack σ.intent.baseAmount := abs_proceeds_le hb
  obtain ⟨hlow, hhigh⟩ := abs_le.mp hproceeds
  have hslipped : x.slipped .sell σ.tick.price = σ.tick.price * (1 - x.slip) :=
    if_neg (by decide)
  rw [hslipped] at hlow hhigh
  rw [max_eq_left (by linarith)] at hquote
  rw [max_eq_left (by linarith)] at hbase
  refine ⟨fun e => (nomatch hside.symm.trans e), fun _ => ⟨by linarith, by linarith⟩, ?_, ?_⟩
  · rw [hfee]
    exact SimExecutor.fillFee_nonneg h.price h₀ h₁ hf hb
  · rw [h.equity_iff, hmark, hbase, hquote]
    linarith

theorem By.frictional (h : By x σ) (h₀ : 0 ≤ x.slip) (h₁ : x.slip < 1) (hf : 0 ≤ x.feeRate)
    (hspare : x.Spare σ.intent σ.tick σ.before) : σ.Frictional := by
  rcases hspare with hzero | ⟨hb, hsymbol, hside⟩
  · exact h.frictional_zero hzero
  · have hulps : 0 ≤ σ.before.ulps σ.intent.symbol σ.tick.price σ.intent.baseAmount := by
      have hB := h.solvent.baseBalance σ.intent.symbol
      have hprice := h.price.le
      have hQ := h.solvent.quote
      unfold SimWallet.ulps
      positivity
    cases hs : σ.intent.side with
    | buy =>
        rw [hs] at hside
        obtain ⟨hpaid, hroom⟩ := hside
        exact h.frictional_buy h₀ h₁ hf hs hb.le hsymbol (by linarith) (by linarith)
    | sell =>
        rw [hs] at hside
        obtain ⟨hheld, hroom, hnet⟩ := hside
        exact h.frictional_sell h₀ h₁ hf hs hb.le hsymbol hheld (by linarith) (by linarith)

end Settlement

/-- What the policy measures is not below what the base amount is worth. -/
def Intent.Measured (i : Intent) (price : ℚ) : Prop :=
  ∀ q ∈ i.quoteAmount, |i.baseAmount| * price ≤ |q|

instance (i : Intent) (price : ℚ) : Decidable (i.Measured price) := by
  unfold Intent.Measured
  infer_instance

theorem Intent.Measured.le_notional {i : Intent} {price : ℚ} (h : i.Measured price) :
    |i.baseAmount| * price ≤ i.notional price := by
  unfold Intent.notional
  cases hq : i.quoteAmount with
  | none => exact le_rfl
  | some q => exact h q hq

/-! ## Whole runs -/

namespace Runner

variable {A : Type} {r : Runner A Unit} {x : SimExecutor} {t : MarketTick}

theorem executes (hx : r.executor = x.toExecutor) {u u' : Unit} {i : Intent} {w w' : SimWallet}
    {f : Fill} (h : r.executor.execute u i t w = (.ok f, w', u')) :
    f = x.fill i t ∧ w.applyFill f = .ok w' := by
  rw [hx] at h
  rcases SimExecutor.toExecutor_execute h with ⟨g, hg, hok⟩ | ⟨e, he, -⟩
  · cases hg
    obtain ⟨rfl, hw⟩ := SimExecutor.execute_ok.mp hok
    exact ⟨rfl, hw⟩
  · cases he

theorem aborts (hx : r.executor = x.toExecutor) {u u' : Unit} {i : Intent} {w w' : SimWallet}
    {e : InsufficientFunds} (h : r.executor.execute u i t w = (.error e, w', u')) : w' = w := by
  rw [hx] at h
  rcases SimExecutor.toExecutor_execute h with ⟨g, hg, -⟩ | ⟨e', -, hw⟩
  · cases hg
  · exact hw

/-- The wallet is solvent and every settlement was made by the executor from a
solvent wallet. -/
def MadeBy (x : SimExecutor) : Relates := fun w _ _ st => w.Solvent ∧ ∀ σ ∈ st, σ.By x

theorem MadeBy.fill {w w' : SimWallet} {p p' : PolicyEngine} {pend pend' : Option (Intent × ℤ)}
    {st : List Settlement} {i : Intent} {f : Fill} (ht : 0 < t.price) (h : MadeBy x w p pend st)
    (hf : f = x.fill i t ∧ w.applyFill f = .ok w') :
    MadeBy x w' p' pend' (st ++ [⟨i, t, w, f, w'⟩]) := by
  refine ⟨h.1.applyFill hf.2, ?_⟩
  intro σ hσ
  rcases List.mem_append.mp hσ with hσ | hσ
  · exact h.2 σ hσ
  · rw [List.mem_singleton.mp hσ]
    exact ⟨hf.1, hf.2, h.1, ht⟩

theorem madeBy_kept (hx : r.executor = x.toExecutor) (ht : 0 < t.price) : Kept r (MadeBy x) t where
  fillPending h he := h.fill ht (executes hx he)
  dropPending h := h
  abort h he := aborts hx he ▸ h
  rule h := h
  fillNow h _ _ he := h.fill ht (executes hx he)
  keep h _ _ := h

/-- A fill whose intent has room to spare at its tick and wallet moves the wallet by its side,
with a fee that is not negative and without a gain in equity. -/
theorem frictional_of_spare (hx : r.executor = x.toExecutor) (h₀ : 0 ≤ x.slip) (h₁ : x.slip < 1)
    (hf : 0 ≤ x.feeRate) {s : RunState A Unit} (hw : s.wallet.Solvent) (hs : s.settled = [])
    {ticks : List MarketTick} (hp : ∀ t ∈ ticks, 0 < t.price) :
    ∀ σ ∈ (r.loop s ticks).settled, x.Spare σ.intent σ.tick σ.before → σ.Frictional := by
  have hstart : At (MadeBy x) s := by
    refine ⟨hw, ?_⟩
    rw [hs]
    exact fun _ h => nomatch h
  obtain ⟨-, hmade⟩ := Kept.loop (fun t ht => madeBy_kept hx (hp t ht)) hstart
  exact fun σ hσ => (hmade σ hσ).frictional h₀ h₁ hf

/-! ### A run on two ticks -/

/-- A strategy that proposes the same intent on every tick. -/
def always (i : Intent) : Strategy Unit := ⟨fun _ _ _ => (some i, ())⟩

def aRunner (i : Intent) (delay : ℤ) : Runner Unit Unit :=
  { symbol := "BTC", agent := always i, executor := SimExecutor.toExecutor {},
    executionDelay := delay }

def aState : RunState Unit Unit where
  agent := ()
  executor := ()
  policy := { config := {
    allowedSymbols := ["BTC"], maxNotionalPerTx := 200, maxTxPerWindow := 5, windowSteps := 10,
    maxDrawdownPct := 1 / 2 } }
  wallet := { quote := 1000, positions := Dict.empty.set "BTC" 5 }

def twoTicks : List MarketTick := marketTicks "BTC" [100, 101]

theorem aState_solvent : aState.wallet.Solvent :=
  ⟨by decide +kernel, by decide +kernel⟩

theorem twoTicks_pos : ∀ t ∈ twoTicks, 0 < t.price := by decide +kernel

def buyOne : Intent := { symbol := "BTC", side := .buy, baseAmount := 1 }

/-- A purchase of one unit settles on the second tick, with room to spare. -/
theorem frictional_of_spare_buy : ((aRunner buyOne 1).loop aState twoTicks).settled.length = 1 ∧
    ∀ σ ∈ ((aRunner buyOne 1).loop aState twoTicks).settled, σ.Frictional := by
  have hspare : ∀ σ ∈ ((aRunner buyOne 1).loop aState twoTicks).settled,
      SimExecutor.Spare {} σ.intent σ.tick σ.before := by decide +kernel
  exact ⟨by decide +kernel, fun σ hσ =>
    frictional_of_spare rfl (by decide +kernel) (by decide +kernel) (by decide +kernel)
      aState_solvent rfl twoTicks_pos σ hσ (hspare σ hσ)⟩

def buyMinusOne : Intent := { symbol := "BTC", side := .buy, baseAmount := -1 }

/-- A purchase of minus one unit is approved and filled: it takes base away and pays
for it. -/
theorem negative_buy_pays : (∀ t ∈ twoTicks, 0 < t.price) ∧
    ∃ σ ∈ ((aRunner buyMinusOne 1).loop aState twoTicks).settled, ¬ σ.Frictional := by
  have hrun : ((aRunner buyMinusOne 1).loop aState twoTicks).settled.any (fun σ =>
      σ.intent.side = .buy ∧ σ.before.quote < σ.after.quote) = true := by decide +kernel
  obtain ⟨σ, hσ, hpay⟩ := List.any_eq_true.mp hrun
  obtain ⟨hside, hquote⟩ := of_decide_eq_true hpay
  exact ⟨twoTicks_pos, σ, hσ, fun h => absurd (h.buy hside).2 (not_le.mpr hquote)⟩

/-! ## The cap -/

/-- Every settlement's intent was approved, under this configuration, at the tick it
settled at. -/
def Capped (x : SimExecutor) (cfg : PolicyConfig) : Relates := fun _ p pend st =>
  p.config = cfg ∧ pend = none ∧ ∀ σ ∈ st, σ.fill = x.fill σ.intent σ.tick ∧
    ∃ e w, PolicyEngine.Approved e σ.intent σ.tick w ∧ e.config = cfg

theorem capped_kept {cfg : PolicyConfig} (hx : r.executor = x.toExecutor)
    (hd : r.executionDelay = 0) : Kept r (Capped x cfg) t where
  fillPending h _ := nomatch h.2.1
  dropPending h := nomatch h.2.1
  abort h _ := h
  rule h := ⟨PolicyEngine.evaluate_aged.config.trans h.1, h.2⟩
  fillNow h ha _ he := by
    refine ⟨PolicyEngine.evaluate_aged.config.trans h.1, h.2.1, ?_⟩
    intro σ hσ
    rcases List.mem_append.mp hσ with hσ | hσ
    · exact h.2.2 σ hσ
    · rw [List.mem_singleton.mp hσ]
      exact ⟨(executes hx he).1, _, _, ha, h.1⟩
  keep _ _ hpos := absurd hpos (by rw [hd]; exact lt_irrefl 0)

/-- Without delay, a fill is within the cap when the policy measured what the executor fills. -/
theorem within_cap_of_measured (hx : r.executor = x.toExecutor) (hd : r.executionDelay = 0)
    {s : RunState A Unit} (hpend : s.pending = none) (hs : s.settled = [])
    (ticks : List MarketTick) :
    ∀ σ ∈ (r.loop s ticks).settled, σ.intent.Measured σ.tick.price →
      |σ.fill.baseAmount| * σ.tick.price ≤ s.policy.config.maxNotionalPerTx := by
  have hstart : At (Capped x s.policy.config) s := by
    refine ⟨rfl, hpend, ?_⟩
    rw [hs]
    exact fun _ h => nomatch h
  obtain ⟨-, -, hall⟩ := Kept.loop (fun t (_ : t ∈ ticks) => capped_kept hx hd) hstart
  intro σ hσ hmeasured
  obtain ⟨hfill, e, w, happ, hcfg⟩ := hall σ hσ
  have hbase : σ.fill.baseAmount = σ.intent.baseAmount := by rw [hfill]; rfl
  have hcap := happ.cap
  rw [hcfg] at hcap
  rw [hbase]
  exact hmeasured.le_notional.trans hcap

/-- One unit at the tick price of 100, with a cap of 200. -/
theorem within_cap_of_measured_buy : ((aRunner buyOne 0).loop aState twoTicks).settled.length = 2 ∧
    ∀ σ ∈ ((aRunner buyOne 0).loop aState twoTicks).settled,
      |σ.fill.baseAmount| * σ.tick.price ≤ 200 := by
  have hmeasured : ∀ σ ∈ ((aRunner buyOne 0).loop aState twoTicks).settled,
      σ.intent.Measured σ.tick.price := by decide +kernel
  exact ⟨by decide +kernel, fun σ hσ =>
    within_cap_of_measured rfl rfl rfl rfl twoTicks σ hσ (hmeasured σ hσ)⟩

def buyFiveForTen : Intent :=
  { symbol := "BTC", side := .buy, baseAmount := 5, quoteAmount := some 10 }

/-- An intent over 10 in quote passes the cap of 200, and the executor fills its five
units, worth 500. -/
theorem quote_amount_evades_cap : (∀ t ∈ twoTicks, 0 < t.price) ∧
    ∃ σ ∈ ((aRunner buyFiveForTen 0).loop aState twoTicks).settled,
      ¬ |σ.fill.baseAmount| * σ.tick.price ≤ aState.policy.config.maxNotionalPerTx := by
  refine ⟨twoTicks_pos, ?_⟩
  have hrun : ((aRunner buyFiveForTen 0).loop aState twoTicks).settled.any (fun σ =>
      200 < |σ.fill.baseAmount| * σ.tick.price) = true := by decide +kernel
  obtain ⟨σ, hσ, hover⟩ := List.any_eq_true.mp hrun
  exact ⟨σ, hσ, not_le.mpr (of_decide_eq_true hover)⟩

end Runner

end TreasuryForge

/-
# `Core.Gated` — the deployment gate, and what it caps

`treasuryforge/deployment_gate.py`, with the ladder of `risk/stages.py`.  A gated strategy
is asked nothing until its track record clears the gate; what it then proposes is cut to
the tier's share of equity, one intent at a time.

`withinTier_iff_room` is about what accumulates: right after each purchase of a run, the
position is within the tier exactly when every purchase that filled had room beside what
was held before it.  The gate's products and quotients are rounded, in whatever way keeps order:
a budget divided by a price and multiplied by it again can be more than the budget.
-/
import TreasuryForge.Base.RoundingMode
import TreasuryForge.Base.Window
import TreasuryForge.Core.Bounds

namespace TreasuryForge.Gate

/-- The stage ladder. -/
inductive Stage where
  | dead
  | paperLive
  | microCapital
  | smallCapital
  | normalCapital
  | cappedProduction
  deriving DecidableEq, Repr

/-- `STAGE_CAPITAL`: the share of equity a stage may deploy. -/
def Stage.capital : Stage → ℚ
  | .dead => 0
  | .paperLive => 0
  | .microCapital => 1 / 100
  | .smallCapital => 3 / 100
  | .normalCapital => 8 / 100
  | .cappedProduction => 20 / 100

theorem Stage.capital_nonneg (stage : Stage) : 0 ≤ stage.capital := by
  cases stage <;> norm_num [capital]

structure GateVerdict where
  deploy : Bool
  dsr : ℚ
  apr : ℚ
  n : ℕ
  days : ℚ
  tierFraction : ℚ
  reason : String
  deriving Repr

structure DeploymentGate where
  minDsr : ℚ := 60 / 100
  minNetApr : ℚ := 5 / 100
  minIntervals : ℤ := 30
  minDays : ℚ := 14
  tier : Stage := .microCapital
  deriving Repr

/-- `f"{x:.n%}"`. -/
def percent (n : ℕ) (x : ℚ) : String := Decimal.fixed n (x * 100) ++ "%"

/-- The sign flag `+`. -/
def signed (x : ℚ) (text : String) : String := if x < 0 then text else "+" ++ text

/-- The days between the first and the last of the times. -/
def spanDays (ts : List ℤ) : ℚ :=
  match ts.max?, ts.min? with
  | some last, some first => if 2 ≤ ts.length then (last - first : ℤ) / 86400 else 0
  | _, _ => 0

/-- The compounded return, by the year. -/
def netApr (returns : List ℚ) (days : ℚ) : ℚ :=
  let eq := returns.foldl (fun eq r => eq * (1 + r)) 1
  if 0 < days then (eq - 1) / (days / 365) else 0

/-- What keeps a track record from clearing the gate. -/
def DeploymentGate.fails (gate : DeploymentGate) (dsr apr days : ℚ) : List String :=
  (if dsr < gate.minDsr then
    [s!"DSR {Decimal.fixed 3 dsr} < {Decimal.fixed 2 gate.minDsr}"] else []) ++
  (if apr < gate.minNetApr then
    [s!"net APR {signed apr (percent 1 apr)} < {percent 0 gate.minNetApr}"] else []) ++
  (if days < gate.minDays then
    [s!"{Decimal.fixed 1 days}d < {Decimal.fixed 0 gate.minDays}d live"] else [])

/-- The gate's ruling; `deflatedSharpeRatio` takes the returns as one trial. -/
def DeploymentGate.evaluate (gate : DeploymentGate) (deflatedSharpeRatio : List ℚ → ℚ)
    (returns : List ℚ) (ts : List ℤ) : GateVerdict :=
  let n := returns.length
  let days := spanDays ts
  if n < gate.minIntervals ∨ ¬ returns.any (· ≠ 0) then
    ⟨false, 0, 0, n, days, 0, s!"insufficient track record (n={n} < {gate.minIntervals})"⟩
  else
    let dsr := deflatedSharpeRatio returns
    let apr := netApr returns days
    let fails := gate.fails dsr apr days
    if fails ≠ [] then ⟨false, dsr, apr, n, days, 0, "; ".intercalate fails⟩
    else
      ⟨true, dsr, apr, n, days, gate.tier.capital,
        s!"DSR {Decimal.fixed 3 dsr} & APR {signed apr (percent 1 apr)} over " ++
          s!"{n} intervals / {Decimal.fixed 1 days}d"⟩

/-- Capital is released at the tier's fraction, or not at all. -/
theorem DeploymentGate.evaluate_tier (gate : DeploymentGate) (deflatedSharpeRatio : List ℚ → ℚ)
    (returns : List ℚ) (ts : List ℤ) :
    let verdict := gate.evaluate deflatedSharpeRatio returns ts
    verdict.tierFraction = if verdict.deploy then gate.tier.capital else 0 := by
  intro verdict
  simp only [verdict, DeploymentGate.evaluate]
  split
  · rfl
  · split
    · rfl
    · rfl

/-- The amount that a budget buys. -/
def maxBase (ρ : RoundingMode ℚ) (budget price : ℚ) : ℚ :=
  if 0 < price then ρ (budget / price) else 0

/-- The tier's share of the equity. -/
def share (ρ : RoundingMode ℚ) (tierFraction : ℚ) (tick : MarketTick) (wallet : SimWallet) : ℚ :=
  ρ (tierFraction * wallet.equity tick.prices)

/-- "Never let a freshly-promoted edge exceed its tier's share of equity." -/
def capToTier (ρ : RoundingMode ℚ) (intent : Intent) (tick : MarketTick) (wallet : SimWallet)
    (tierFraction : ℚ) : Intent :=
  let budget := share ρ tierFraction tick wallet
  let reason := s!"{intent.reason} [tier-capped {percent 0 tierFraction}]"
  match intent.quoteAmount with
  | some q =>
      if q ≤ budget then intent else { intent with quoteAmount := some budget, reason := reason }
  | none =>
      let maxBase := maxBase ρ budget tick.price
      if intent.baseAmount ≤ maxBase then intent
      else { intent with baseAmount := maxBase, reason := reason }

/-- A live signal behind a gate; its track record is a callable with a state of its own. -/
structure GatedStrategy (A T : Type) where
  inner : Strategy A
  trackRecord : T → (List ℚ × List ℤ) × T
  deflatedSharpeRatio : List ℚ → ℚ
  rounding : RoundingMode ℚ := .exact ℚ
  gate : DeploymentGate := {}

structure GatedState (A T : Type) where
  inner : A
  record : T
  lastVerdict : Option GateVerdict := none

namespace GatedStrategy

variable {A T : Type} (g : GatedStrategy A T)

/-- The verdict of the gate on the track record as it is now. -/
def verdict (s : GatedState A T) : GateVerdict :=
  let (returns, ts) := (g.trackRecord s.record).1
  g.gate.evaluate g.deflatedSharpeRatio returns ts

def decide (s : GatedState A T) (tick : MarketTick) (wallet : SimWallet) :
    Option Intent × GatedState A T :=
  let verdict := g.verdict s
  let s := { s with record := (g.trackRecord s.record).2, lastVerdict := some verdict }
  if verdict.deploy = false then (none, s)
  else
    match g.inner.decide s.inner tick wallet with
    | (none, a) => (none, { s with inner := a })
    | (some intent, a) =>
        (some (capToTier g.rounding intent tick wallet verdict.tierFraction),
          { s with inner := a })

def toStrategy : Strategy (GatedState A T) := ⟨g.decide⟩

/-- What the signal proposes, if the gate lets it be asked. -/
def proposal (s : GatedState A T) (tick : MarketTick) (wallet : SimWallet) : Option Intent :=
  if (g.verdict s).deploy then (g.inner.decide s.inner tick wallet).1 else none

/-- A gated decision is the proposal, cut to the tier of the gate. -/
theorem decide_fst (s : GatedState A T) (tick : MarketTick) (wallet : SimWallet) :
    (g.decide s tick wallet).1 =
      (g.proposal s tick wallet).map
        (capToTier g.rounding · tick wallet g.gate.tier.capital) := by
  have htier := g.gate.evaluate_tier g.deflatedSharpeRatio (g.trackRecord s.record).1.1
    (g.trackRecord s.record).1.2
  unfold decide proposal
  dsimp only
  cases hv : (g.verdict s).deploy with
  | false => rfl
  | true =>
      have hfraction : (g.verdict s).tierFraction = g.gate.tier.capital :=
        htier.trans (if_pos hv)
      rw [if_neg Bool.noConfusion, if_pos rfl, hfraction]
      rcases g.inner.decide s.inner tick wallet with ⟨_ | intent, a⟩
      · rfl
      · rfl

end GatedStrategy

/-! ## The room a purchase has -/

section Room

variable (ρ : RoundingMode ℚ) (fraction : ℚ) (intent : Intent) (tick : MarketTick)
  (wallet : SimWallet)

/-- The share of equity is not negative; and what the wallet holds is within it together with
what the intent asks for, or with what the cap leaves of an amount that it applies to. -/
def Room : Prop :=
  0 ≤ share ρ fraction tick wallet ∧
  (ρ ((wallet.baseBalance intent.symbol + intent.baseAmount) * tick.price) ≤
      share ρ fraction tick wallet ∨
    (intent.quoteAmount = none ∧
      ρ ((wallet.baseBalance intent.symbol +
          maxBase ρ (share ρ fraction tick wallet) tick.price) * tick.price) ≤
        share ρ fraction tick wallet))

/-- What the cap leaves of the amount that the executor fills. -/
theorem capToTier_baseAmount : (capToTier ρ intent tick wallet fraction).baseAmount =
    match intent.quoteAmount with
    | some _ => intent.baseAmount
    | none => min intent.baseAmount (maxBase ρ (share ρ fraction tick wallet) tick.price) := by
  unfold capToTier
  dsimp only
  cases intent.quoteAmount with
  | some q =>
      dsimp only
      split
      · rfl
      · rfl
  | none =>
      dsimp only
      split
      · rename_i hle
        exact (min_eq_left hle).symm
      · rename_i hgt
        exact (min_eq_right (not_le.mp hgt).le).symm

/-- The cap changes no more than an amount and the reason. -/
theorem capToTier_of : (capToTier ρ intent tick wallet fraction).side = intent.side ∧
    (capToTier ρ intent tick wallet fraction).symbol = intent.symbol := by
  unfold capToTier
  dsimp only
  split
  · split
    · exact ⟨rfl, rfl⟩
    · exact ⟨rfl, rfl⟩
  · split
    · exact ⟨rfl, rfl⟩
    · exact ⟨rfl, rfl⟩

variable {ρ fraction intent tick wallet}

/-- The position after the capped purchase is within the share exactly when the purchase, as
it was proposed, had room. -/
theorem capped_within_iff (hprice : 0 < tick.price) :
    ρ (max (wallet.baseBalance intent.symbol +
        (capToTier ρ intent tick wallet fraction).baseAmount) 0 * tick.price) ≤
        share ρ fraction tick wallet ↔
      Room ρ fraction intent tick wallet := by
  rw [capToTier_baseAmount, ρ.max_zero_mul_le_iff hprice.le, Room]
  refine and_congr_right fun _ => ?_
  cases intent.quoteAmount with
  | some q => simp
  | none =>
      dsimp only
      rw [← min_add_add_left, ρ.min_mul hprice.le, min_le_iff]
      simp

/-- Without rounding, what the cap leaves fits beside nothing only. -/
theorem room_exact_iff (hprice : 0 < tick.price) : Room (.exact ℚ) fraction intent tick wallet ↔
    0 ≤ fraction * wallet.equity tick.prices ∧
    ((wallet.baseBalance intent.symbol + intent.baseAmount) * tick.price ≤
        fraction * wallet.equity tick.prices ∨
      (intent.quoteAmount = none ∧ wallet.baseBalance intent.symbol ≤ 0)) := by
  have hheld : ∀ held budget : ℚ,
      (held + budget / tick.price) * tick.price ≤ budget ↔ held ≤ 0 := by
    intro held budget
    rw [add_mul, div_mul_cancel₀ _ hprice.ne', add_le_iff_nonpos_left]
    constructor
    · intro h
      exact nonpos_of_mul_nonpos_left h hprice
    · intro h
      exact mul_nonpos_of_nonpos_of_nonneg h hprice.le
  simp only [Room, share, maxBase, if_pos hprice, RoundingMode.exact_apply, hheld]

theorem equity_nonneg (hw : wallet.Solvent) (hprice : 0 < tick.price) :
    0 ≤ wallet.equity tick.prices := by
  refine add_nonneg hw.quote (List.sum_nonneg ?_)
  intro q hq
  obtain ⟨p, hp, rfl⟩ := List.mem_map.mp hq
  refine mul_nonneg (hw.positions p hp) ?_
  rw [SimWallet.prices_getD]
  split
  · exact hprice.le
  · exact le_rfl

/-- On a wallet without debts only the second half of `Room` is left to ask. -/
theorem room_iff_of_solvent (stage : Stage) (hw : wallet.Solvent) (hprice : 0 < tick.price) :
    Room (.exact ℚ) stage.capital intent tick wallet ↔
      (wallet.baseBalance intent.symbol + intent.baseAmount) * tick.price ≤
          stage.capital * wallet.equity tick.prices ∨
        (intent.quoteAmount = none ∧ wallet.baseBalance intent.symbol = 0) := by
  have hbudget : 0 ≤ stage.capital * wallet.equity tick.prices :=
    mul_nonneg stage.capital_nonneg (equity_nonneg hw hprice)
  have hheld : wallet.baseBalance intent.symbol ≤ 0 ↔ wallet.baseBalance intent.symbol = 0 :=
    (hw.baseBalance intent.symbol).ge_iff_eq'
  rw [room_exact_iff hprice, hheld]
  exact and_iff_right hbudget

end Room

/-! ## Runs -/

/-- A purchase that leaves the position within this share of the equity before it. -/
def WithinTier (ρ : RoundingMode ℚ) (fraction : ℚ) (σ : Settlement) : Prop :=
  σ.intent.side = .buy →
    ρ (σ.after.baseBalance σ.intent.symbol * σ.tick.price) ≤ share ρ fraction σ.tick σ.before

section Run

variable {A T : Type} (g : GatedStrategy A T) (x : SimExecutor)

/-- The simulated run of a gated strategy that settles at once. -/
structure Runs (r : Runner (GatedState A T) Unit) : Prop where
  agent : r.agent = g.toStrategy
  executor : r.executor = x.toExecutor
  delay : r.executionDelay ≤ 0

/-- The proposal of the signal that this tick executes: the gate and the policy let it
through, and the wallet covers it. -/
def executed (r : Runner (GatedState A T) Unit) (s : RunState (GatedState A T) Unit)
    (tick : MarketTick) : Option Intent :=
  (g.proposal s.agent tick s.wallet).filter fun intent =>
    (r.approved s tick).isSome &&
      (s.wallet.applyFill
        (x.fill (capToTier g.rounding intent tick s.wallet g.gate.tier.capital) tick)).isOk

/-- Every purchase this tick executes has room. -/
def Roomy (r : Runner (GatedState A T) Unit) (s : RunState (GatedState A T) Unit)
    (tick : MarketTick) : Prop :=
  ∀ intent ∈ executed g x r s tick, intent.side = .buy →
    Room g.rounding g.gate.tier.capital intent tick s.wallet

variable {g x} {r : Runner (GatedState A T) Unit} {s : RunState (GatedState A T) Unit}
  {tick : MarketTick}

/-- `σ` is the settlement of this proposal, capped, on this wallet. -/
structure SettlesCapped (g : GatedStrategy A T) (x : SimExecutor) (wallet : SimWallet)
    (t : MarketTick) (σ : Settlement) (i : Intent) : Prop where
  intent : σ.intent = capToTier g.rounding i t wallet g.gate.tier.capital
  tick : σ.tick = t
  before : σ.before = wallet
  fill : wallet.applyFill (x.fill (capToTier g.rounding i t wallet g.gate.tier.capital) t) =
    .ok σ.after

/-- The simulated executor settles what the wallet accepts. -/
theorem settle_sim (hx : r.executor = x.toExecutor) (s : RunState (GatedState A T) Unit)
    (intent : Intent) (tick : MarketTick) :
    (r.settle s intent tick).pending = s.pending ∧
    ∃ done, (r.settle s intent tick).settled = s.settled ++ done ∧
      done = match s.wallet.applyFill (x.fill intent tick) with
        | .ok wallet => [⟨intent, tick, s.wallet, x.fill intent tick, wallet⟩]
        | .error _ => [] := by
  have hexec : r.executor.execute s.executor intent tick s.wallet =
      match s.wallet.applyFill (x.fill intent tick) with
      | .ok wallet => (.ok (x.fill intent tick), wallet, ())
      | .error e => (.error e, s.wallet, ()) := by
    simp only [hx, SimExecutor.toExecutor, SimExecutor.execute]
    cases s.wallet.applyFill (x.fill intent tick) with
    | ok wallet => rfl
    | error e => rfl
  rcases Runner.settle_cases (r := r) s intent tick with
    ⟨fill, wallet, u, report, prices, hfill, hs, -⟩ | ⟨e, wallet, u, report, prices, hfill, hs, -⟩
  · rw [hexec] at hfill
    rw [hs]
    cases happly : s.wallet.applyFill (x.fill intent tick) with
    | ok wallet' =>
        rw [happly] at hfill
        cases hfill
        exact ⟨rfl, _, rfl, rfl⟩
    | error e =>
        rw [happly] at hfill
        cases hfill
  · rw [hexec] at hfill
    rw [hs]
    cases happly : s.wallet.applyFill (x.fill intent tick) with
    | ok wallet' =>
        rw [happly] at hfill
        cases hfill
    | error e => exact ⟨rfl, [], (List.append_nil _).symm, rfl⟩

/-- With nothing pending, a tick is a decision and what follows it. -/
theorem onTick_idle (r : Runner (GatedState A T) Unit) (tick : MarketTick)
    (hn : s.pending = none) : ∃ s₁ : RunState (GatedState A T) Unit,
    s₁.policy = s.policy ∧ s₁.wallet = s.wallet ∧ s₁.pending = none ∧ s₁.settled = s.settled ∧
    r.approved s tick = (r.agent.decide s.agent tick s.wallet).1.filter (fun i =>
      (s.policy.evaluate i tick s.wallet none).1.allowed) ∧
    r.onTick s tick = match r.agent.decide s.agent tick s.wallet with
      | (none, a) => r.log { s₁ with agent := a } tick.ts tick.price .hold
      | (some intent, a) => r.dispose { s₁ with agent := a } intent tick := by
  have hopened : (Runner.opened s tick).agent = s.agent ∧
      (Runner.opened s tick).policy = s.policy ∧ (Runner.opened s tick).wallet = s.wallet ∧
      (Runner.opened s tick).pending = none ∧ (Runner.opened s tick).settled = s.settled := by
    unfold Runner.opened
    split <;> exact ⟨rfl, rfl, rfl, hn, rfl⟩
  obtain ⟨hagent, hpolicy, hwallet, hnone, hsettled⟩ := hopened
  have hsettle : r.settlePending (Runner.opened s tick) tick = Runner.opened s tick := by
    rw [Runner.settlePending, hnone]
  refine ⟨Runner.opened s tick, hpolicy, hwallet, hnone, hsettled, ?_, ?_⟩
  · rw [Runner.approved, hsettle, hagent, hpolicy, hwallet]
  · rw [Runner.onTick, hsettle, hagent, hwallet]
    rcases r.agent.decide s.agent tick s.wallet with ⟨_ | i, a⟩
    · rfl
    · rfl

/-- A tick settles the proposal it executes, capped, and nothing else. -/
theorem onTick_settled (hr : Runs g x r) (hn : s.pending = none) (tick : MarketTick) :
    (r.onTick s tick).pending = none ∧
    ∃ done, (r.onTick s tick).settled = s.settled ++ done ∧
      List.Forall₂ (SettlesCapped g x s.wallet tick) done (executed g x r s tick).toList := by
  obtain ⟨s₁, hpolicy, hwallet, hnone, hsettled, happroved, htick⟩ :=
    onTick_idle r tick hn
  have hdecide : (r.agent.decide s.agent tick s.wallet).1 =
      (g.proposal s.agent tick s.wallet).map
        (capToTier g.rounding · tick s.wallet g.gate.tier.capital) := by
    rw [hr.agent]
    exact g.decide_fst s.agent tick s.wallet
  rw [htick, executed, happroved]
  generalize r.agent.decide s.agent tick s.wallet = decision at hdecide ⊢
  obtain ⟨decided, a⟩ := decision
  dsimp only at hdecide
  rw [hdecide]
  dsimp only
  cases g.proposal s.agent tick s.wallet with
  | none => exact ⟨hnone, [], hsettled.trans (List.append_nil _).symm, .nil⟩
  | some i =>
      generalize hcap : capToTier g.rounding i tick s.wallet g.gate.tier.capital = capped
      rw [Option.map_some, hcap, Option.filter_some, Option.filter_some, hcap]
      rcases Runner.dispose_cases (r := r) { s₁ with agent := a } capped tick with
        ⟨ha, log, report, prices, he, -⟩ | ⟨ha, -, log, he⟩ | ⟨-, hd, -⟩
      · -- denied
        dsimp only at ha
        rw [hpolicy, hwallet] at ha
        dsimp only
        rw [he, ha]
        exact ⟨hnone, [], hsettled.trans (List.append_nil _).symm, .nil⟩
      · dsimp only at ha
        rw [hpolicy, hwallet] at ha
        dsimp only
        rw [he, ha]
        obtain ⟨hpending, done, hsettle, hdone⟩ := settle_sim hr.executor { s₁ with
          agent := a
          policy := (s₁.policy.evaluate capped tick s₁.wallet none).2
          auditLog := log } capped tick
        refine ⟨hpending.trans hnone, done, hsettle.trans (congrArg (· ++ done) hsettled), ?_⟩
        dsimp only at hdone
        rw [hwallet] at hdone
        rw [hdone]
        cases hfill : s.wallet.applyFill (x.fill capped tick) with
        | error e => exact .nil
        | ok wallet => exact .cons ⟨hcap.symm, rfl, rfl, hcap ▸ hfill⟩ .nil
      · exact absurd hr.delay (not_le.mpr hd)

/-- The settlement of a capped proposal is within the tier exactly when the proposal, if it
is a purchase, had room. -/
theorem SettlesCapped.within_iff {wallet : SimWallet} {σ : Settlement} {i : Intent}
    (h : SettlesCapped g x wallet tick σ i) (hprice : 0 < tick.price) :
    WithinTier g.rounding g.gate.tier.capital σ ↔
      (i.side = .buy → Room g.rounding g.gate.tier.capital i tick wallet) := by
  obtain ⟨hside, hsymbol⟩ := capToTier_of g.rounding g.gate.tier.capital i tick wallet
  rw [WithinTier, h.intent, h.tick, h.before, hside, hsymbol]
  refine imp_congr_right fun hbuy => ?_
  obtain ⟨-, -, hafter⟩ := SimWallet.applyFill_ok.mp h.fill
  have hdelta : (x.fill (capToTier g.rounding i tick wallet g.gate.tier.capital) tick).baseDelta =
      (capToTier g.rounding i tick wallet g.gate.tier.capital).baseAmount := by
    simp [Fill.baseDelta, SimExecutor.fill, hside, hbuy]
  have hsym : (x.fill (capToTier g.rounding i tick wallet g.gate.tier.capital) tick).symbol =
      i.symbol := hsymbol
  rw [hafter, hsym, SimWallet.baseBalance_set, hdelta]
  exact capped_within_iff hprice

/-- One tick adds settlements within the tier exactly when it is roomy. -/
theorem onTick_within_iff (hr : Runs g x r) (hn : s.pending = none) (hprice : 0 < tick.price) :
    (∀ σ ∈ (r.onTick s tick).settled, WithinTier g.rounding g.gate.tier.capital σ) ↔
      (∀ σ ∈ s.settled, WithinTier g.rounding g.gate.tier.capital σ) ∧ Roomy g x r s tick := by
  obtain ⟨-, done, hdone, hcapped⟩ := onTick_settled hr hn tick
  rw [hdone, List.forall_mem_append]
  refine and_congr_right fun _ => ?_
  unfold Roomy
  cases hexec : executed g x r s tick with
  | none =>
      rw [hexec] at hcapped
      cases hcapped
      simp
  | some i =>
      rw [hexec] at hcapped
      cases hcapped with
      | cons hσ hnil =>
          cases hnil
          simp only [List.forall_mem_singleton, Option.mem_def, Option.some.injEq, forall_eq']
          exact hσ.within_iff hprice

end Run

/-! ## A signal that buys on every tick -/

/-- Fifty returns over twenty days, as the track record never changes. -/
def strongRecord : List ℚ × List ℤ :=
  ((List.replicate 25 [3 / 1000, 1 / 1000]).flatten, (List.range 50).map fun i => i * 35265)

/-- The record clears the gate; the signal proposes the same intent on every tick. -/
def eager (i : Intent) : GatedStrategy Unit Unit where
  inner := Runner.always i
  trackRecord _ := (strongRecord, ())
  deflatedSharpeRatio _ := 1

def eagerRunner (i : Intent) : Runner (GatedState Unit Unit) Unit where
  symbol := "BTC"
  agent := (eager i).toStrategy
  executor := SimExecutor.toExecutor { slippageBps := 0 }
  executionDelay := 0

def eagerState : RunState (GatedState Unit Unit) Unit where
  agent := { inner := (), record := () }
  executor := ()
  policy := Runner.aState.policy
  wallet := { quote := 1000 }

theorem eagerRuns (i : Intent) : Runs (eager i) { slippageBps := 0 } (eagerRunner i) :=
  ⟨rfl, rfl, le_rfl⟩

end TreasuryForge.Gate

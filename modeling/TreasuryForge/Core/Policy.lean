/-
# `Core.Policy` — the policy engine

`treasuryforge/policy.py`: the eight rules between a proposed intent and any
execution, in the source's order, with the texts of its verdicts.

    1 kill switch     2 circuit breaker   3 staleness     4 allowlist
    5 per-tx cap      6 rate limit        7 spend budget  8 solvency

`evaluate` returns the verdict and the engine after it: the first call anchors
the drawdown floor, rule 2 latches, and rules 6 and 7 prune the windows they look
at, also when a later rule denies.  `Approved` collects what an ALLOW means, and
`evaluate_allowed` is the one place where the branches of `evaluate` are gone
through; everything downstream uses the fields of `Approved`.
-/
import TreasuryForge.Core.Wallet

namespace TreasuryForge

structure PolicyConfig where
  allowedSymbols : List String
  maxNotionalPerTx : ℚ
  maxTxPerWindow : ℕ
  windowSteps : ℤ
  maxDrawdownPct : ℚ
  feeRate : ℚ := 0
  killSwitch : Bool := false
  minNotionalPerTx : Option ℚ := none
  maxNotionalPerWindow : Option ℚ := none
  spendWindowSteps : Option ℤ := none
  maxStalenessNs : Option ℤ := none
  deriving Repr

/-- The spend window defaults to the rate window. -/
def PolicyConfig.spendWindow (cfg : PolicyConfig) : ℤ := cfg.spendWindowSteps.getD cfg.windowSteps

structure PolicyEngine where
  config : PolicyConfig
  startingEquity : Option ℚ := none
  tripped : Bool := false
  recentTs : List ℤ := []
  spend : List (ℤ × ℚ) := []
  deriving Repr

namespace PolicyEngine

/-- Drop entries from the left while they are at or before the cutoff. -/
def prune {α : Type} (ts : α → ℤ) (dq : List α) (now window : ℤ) : List α :=
  dq.dropWhile fun x => decide (ts x ≤ now - window)

/-- The entries rule 6 counts at time `now`. -/
def recentAt (e : PolicyEngine) (now : ℤ) : List ℤ := prune id e.recentTs now e.config.windowSteps

/-- The entries rule 7 adds up at time `now`. -/
def spendAt (e : PolicyEngine) (now : ℤ) : List (ℤ × ℚ) :=
  prune Prod.fst e.spend now e.config.spendWindow

def spentAt (e : PolicyEngine) (now : ℤ) : ℚ := ((e.spendAt now).map Prod.snd).sum

/-- Rule 3 denies: a budget and a data age are both there, and the age is over. -/
def stale (cfg : PolicyConfig) (dataAgeNs : Option ℤ) : Option (ℤ × ℤ) :=
  match cfg.maxStalenessNs, dataAgeNs with
  | some budget, some age => if budget < age then some (age, budget) else none
  | _, _ => none

/-- Rule 8. -/
def solvency (cfg : PolicyConfig) (intent : Intent) (notional : ℚ) (wallet : SimWallet) : Verdict :=
  if intent.side = .buy then
    let cost := notional * (1 + cfg.feeRate)
    if wallet.quote + eps < cost then
      ⟨false, s!"DENY:insufficient_quote need={Decimal.fixed 2 cost} " ++
        s!"have={Decimal.fixed 2 wallet.quote}"⟩
    else ⟨true, "ALLOW"⟩
  else
    let held := wallet.baseBalance intent.symbol
    if held + eps < intent.baseAmount then
      ⟨false, s!"DENY:insufficient_base need={Decimal.fixed 6 intent.baseAmount} " ++
        s!"have={Decimal.fixed 6 held}"⟩
    else ⟨true, "ALLOW"⟩

/-- Rules 6 to 8, on an intent that passed the first five. -/
def limits (e : PolicyEngine) (intent : Intent) (notional : ℚ) (ts : ℤ) (wallet : SimWallet) :
    Verdict × PolicyEngine :=
  let cfg := e.config
  let recent := e.recentAt ts
  let e₆ := { e with recentTs := recent }
  if cfg.maxTxPerWindow ≤ recent.length then
    (⟨false, s!"DENY:rate_limit {cfg.maxTxPerWindow}/{cfg.windowSteps} steps"⟩, e₆)
  else
    match cfg.maxNotionalPerWindow with
    | none => (solvency cfg intent notional wallet, e₆)
    | some budget =>
        let spent := e.spentAt ts
        let e₇ := { e₆ with spend := e.spendAt ts }
        if budget + eps < spent + notional then
          (⟨false, s!"DENY:spend_budget {Decimal.fixed 2 (spent + notional)} > " ++
            s!"{Decimal.fixed 2 budget}/{cfg.spendWindow} steps"⟩, e₇)
        else (solvency cfg intent notional wallet, e₇)

/-- The first evaluation fixes the equity the drawdown is measured from. -/
def anchor (e : PolicyEngine) (equity : ℚ) : PolicyEngine :=
  { e with startingEquity := some (e.startingEquity.getD equity) }

def evaluate (e : PolicyEngine) (intent : Intent) (tick : MarketTick) (wallet : SimWallet)
    (dataAgeNs : Option ℤ) : Verdict × PolicyEngine :=
  let cfg := e.config
  let equity := wallet.equity tick.prices
  let start := e.startingEquity.getD equity
  let e := e.anchor equity
  if cfg.killSwitch then (⟨false, "DENY:kill_switch active"⟩, e)
  else
    let floor := start * (1 - cfg.maxDrawdownPct)
    if e.tripped = true ∨ equity < floor then
      (⟨false, s!"DENY:circuit_breaker equity={Decimal.fixed 2 equity} " ++
        s!"< floor={Decimal.fixed 2 floor}"⟩, { e with tripped := true })
    else
      match stale cfg dataAgeNs with
      | some (age, budget) => (⟨false, s!"DENY:stale_data age={age}ns > {budget}ns"⟩, e)
      | none =>
          if intent.symbol ∉ cfg.allowedSymbols then
            (⟨false, s!"DENY:symbol '{intent.symbol}' not in allowlist"⟩, e)
          else
            let notional := intent.notional tick.price
            if cfg.maxNotionalPerTx < notional then
              (⟨false, s!"DENY:notional {Decimal.fixed 2 notional} > " ++
                s!"cap {Decimal.fixed 2 cfg.maxNotionalPerTx}"⟩, e)
            else
              match cfg.minNotionalPerTx with
              | none => e.limits intent notional tick.ts wallet
              | some m =>
                  if notional < m - eps then
                    (⟨false, s!"DENY:min_notional {Decimal.fixed 2 notional} < " ++
                      s!"floor {Decimal.fixed 2 m}"⟩, e)
                  else e.limits intent notional tick.ts wallet

/-- Record an executed trade in both windows. -/
def registerFill (e : PolicyEngine) (ts : ℤ) (notional : ℚ) : PolicyEngine :=
  { e with recentTs := e.recentTs ++ [ts], spend := e.spend ++ [(ts, notional)] }

/-- The latched state that is persisted: everything but the configuration. -/
structure Snapshot where
  startingEquity : Option ℚ
  tripped : Bool
  recentTs : List ℤ
  spend : List (ℤ × ℚ)
  deriving DecidableEq, Repr

def snapshot (e : PolicyEngine) : Snapshot := ⟨e.startingEquity, e.tripped, e.recentTs, e.spend⟩

def restore (e : PolicyEngine) (s : Snapshot) : PolicyEngine :=
  { config := e.config, startingEquity := s.startingEquity, tripped := s.tripped,
    recentTs := s.recentTs, spend := s.spend }

@[simp] theorem anchor_tripped (e : PolicyEngine) (q : ℚ) : (e.anchor q).tripped = e.tripped := rfl

/-! ## What an ALLOW means -/

/-- Every condition an approved intent met. -/
structure Approved (e : PolicyEngine) (intent : Intent) (tick : MarketTick) (wallet : SimWallet) :
    Prop where
  live : e.config.killSwitch = false
  untripped : e.tripped = false
  symbol : intent.symbol ∈ e.config.allowedSymbols
  cap : intent.notional tick.price ≤ e.config.maxNotionalPerTx
  minimum : ∀ m, e.config.minNotionalPerTx = some m → m - eps ≤ intent.notional tick.price
  rate : (e.recentAt tick.ts).length < e.config.maxTxPerWindow
  budget : ∀ b, e.config.maxNotionalPerWindow = some b →
    e.spentAt tick.ts + intent.notional tick.price ≤ b + eps
  quote : intent.side = .buy →
    intent.notional tick.price * (1 + e.config.feeRate) ≤ wallet.quote + eps
  base : intent.side = .sell → intent.baseAmount ≤ wallet.baseBalance intent.symbol + eps

variable {e : PolicyEngine} {intent : Intent} {tick : MarketTick} {wallet : SimWallet}
  {age : Option ℤ}

theorem solvency_allowed {cfg : PolicyConfig} {notional : ℚ}
    (h : (solvency cfg intent notional wallet).allowed = true) :
    (intent.side = .buy → notional * (1 + cfg.feeRate) ≤ wallet.quote + eps) ∧
    (intent.side = .sell → intent.baseAmount ≤ wallet.baseBalance intent.symbol + eps) := by
  unfold solvency at h
  by_cases hs : intent.side = .buy
  · rw [if_pos hs] at h
    by_cases hc : wallet.quote + eps < notional * (1 + cfg.feeRate)
    · simp [if_pos hc] at h
    · exact ⟨fun _ => not_lt.mp hc, fun he => by rw [hs] at he; exact nomatch he⟩
  · rw [if_neg hs] at h
    by_cases hc : wallet.baseBalance intent.symbol + eps < intent.baseAmount
    · simp [if_pos hc] at h
    · exact ⟨fun he => absurd he hs, fun _ => not_lt.mp hc⟩

theorem limits_allowed {notional : ℚ} {ts : ℤ}
    (h : (e.limits intent notional ts wallet).1.allowed = true) :
    (e.recentAt ts).length < e.config.maxTxPerWindow ∧
    (∀ b, e.config.maxNotionalPerWindow = some b → e.spentAt ts + notional ≤ b + eps) ∧
    (solvency e.config intent notional wallet).allowed = true := by
  unfold limits at h
  by_cases hr : e.config.maxTxPerWindow ≤ (e.recentAt ts).length
  · simp [if_pos hr] at h
  · refine ⟨not_le.mp hr, ?_⟩
    simp only [if_neg hr] at h
    cases hb : e.config.maxNotionalPerWindow with
    | none =>
        rw [hb] at h
        exact ⟨fun b he => (nomatch he), h⟩
    | some budget =>
        rw [hb] at h
        by_cases hs : budget + eps < e.spentAt ts + notional
        · simp [if_pos hs] at h
        · simp only [if_neg hs] at h
          refine ⟨fun b he => ?_, h⟩
          cases he
          exact not_lt.mp hs

theorem evaluate_allowed (h : (e.evaluate intent tick wallet age).1.allowed = true) :
    Approved e intent tick wallet := by
  unfold evaluate at h
  by_cases hk : e.config.killSwitch = true
  · simp [if_pos hk] at h
  simp only [if_neg hk, anchor_tripped] at h
  by_cases hb : e.tripped = true ∨ wallet.equity tick.prices <
      e.startingEquity.getD (wallet.equity tick.prices) * (1 - e.config.maxDrawdownPct)
  · simp [if_pos hb] at h
  simp only [if_neg hb] at h
  cases hst : stale e.config age with
  | some p => simp [hst] at h
  | none =>
    simp only [hst] at h
    by_cases hsym : intent.symbol ∉ e.config.allowedSymbols
    · simp [if_pos hsym] at h
    simp only [if_neg hsym] at h
    by_cases hcap : e.config.maxNotionalPerTx < intent.notional tick.price
    · simp [if_pos hcap] at h
    simp only [if_neg hcap] at h
    -- rules 6 to 8 run on the anchored engine, which has the same windows
    have hlim : ((e.anchor (wallet.equity tick.prices)).limits intent
          (intent.notional tick.price) tick.ts wallet).1.allowed = true ∧
        ∀ m, e.config.minNotionalPerTx = some m → m - eps ≤ intent.notional tick.price := by
      cases hm : e.config.minNotionalPerTx with
      | none =>
          rw [hm] at h
          exact ⟨h, fun m he => (nomatch he)⟩
      | some m =>
          rw [hm] at h
          by_cases hmin : intent.notional tick.price < m - eps
          · simp [if_pos hmin] at h
          · simp only [if_neg hmin] at h
            refine ⟨h, ?_⟩
            intro m' he
            cases he
            exact not_lt.mp hmin
    obtain ⟨hrate, hbudget, hsolv⟩ := limits_allowed hlim.1
    obtain ⟨hq, hbase⟩ := solvency_allowed hsolv
    exact {
      live := by simpa using hk
      untripped := by simpa using fun ht => hb (Or.inl ht)
      symbol := not_not.mp hsym
      cap := not_lt.mp hcap
      minimum := hlim.2
      rate := hrate
      budget := hbudget
      quote := hq
      base := hbase }

/-! ## What a call leaves unchanged -/

/-- `e'` has the configuration of `e`, and windows that are those of `e` or what
pruning at `now` left of them. -/
structure Aged (e : PolicyEngine) (now : ℤ) (e' : PolicyEngine) : Prop where
  config : e'.config = e.config
  recent : e'.recentTs = e.recentTs ∨ e'.recentTs = e.recentAt now
  spend : e'.spend = e.spend ∨ e'.spend = e.spendAt now

theorem limits_aged (notional : ℚ) (ts : ℤ) :
    Aged e ts (e.limits intent notional ts wallet).2 := by
  unfold limits
  by_cases hr : e.config.maxTxPerWindow ≤ (e.recentAt ts).length
  · simp only [if_pos hr]
    exact ⟨rfl, Or.inr rfl, Or.inl rfl⟩
  · simp only [if_neg hr]
    cases e.config.maxNotionalPerWindow with
    | none => exact ⟨rfl, Or.inr rfl, Or.inl rfl⟩
    | some budget =>
        by_cases hs : budget + eps < e.spentAt ts + notional
        · simp only [if_pos hs]; exact ⟨rfl, Or.inr rfl, Or.inr rfl⟩
        · simp only [if_neg hs]; exact ⟨rfl, Or.inr rfl, Or.inr rfl⟩

theorem evaluate_aged : Aged e tick.ts (e.evaluate intent tick wallet age).2 := by
  have hsame : ∀ q : ℚ, Aged e tick.ts (e.anchor q) := fun _ => ⟨rfl, Or.inl rfl, Or.inl rfl⟩
  have hlim : ∀ q n : ℚ, Aged e tick.ts ((e.anchor q).limits intent n tick.ts wallet).2 :=
    fun q n =>
      let h := limits_aged (e := e.anchor q) n tick.ts
      ⟨h.config, h.recent, h.spend⟩
  unfold evaluate
  by_cases hk : e.config.killSwitch = true
  · simp only [if_pos hk]; exact hsame _
  simp only [if_neg hk]
  split
  · exact ⟨rfl, Or.inl rfl, Or.inl rfl⟩
  · split
    · exact hsame _
    · split
      · exact hsame _
      · split
        · exact hsame _
        · split
          · exact hlim _ _
          · split
            · exact hsame _
            · exact hlim _ _

/-! ## The latch -/

/-- The two fields that must outlive a crash: the drawdown anchor and the trip. -/
def latch (e : PolicyEngine) : Option ℚ × Bool := (e.startingEquity, e.tripped)

def Snapshot.latch (s : Snapshot) : Option ℚ × Bool := (s.startingEquity, s.tripped)

@[simp] theorem snapshot_latch (e : PolicyEngine) : e.snapshot.latch = e.latch := rfl

@[simp] theorem restore_latch (e : PolicyEngine) (s : Snapshot) : (e.restore s).latch = s.latch := rfl

@[simp] theorem registerFill_latch (e : PolicyEngine) (ts : ℤ) (n : ℚ) :
    (e.registerFill ts n).latch = e.latch := rfl

theorem limits_latch (notional : ℚ) (ts : ℤ) :
    (e.limits intent notional ts wallet).2.latch = e.latch := by
  unfold limits
  simp only
  split
  · rfl
  · split
    · rfl
    · split <;> rfl

variable (e tick wallet) in
/-- Rule 2 denies: the engine is tripped, or the equity is below the floor. -/
def Breaks : Prop :=
  e.config.killSwitch = false ∧ (e.tripped = true ∨
    wallet.equity tick.prices <
      e.startingEquity.getD (wallet.equity tick.prices) * (1 - e.config.maxDrawdownPct))

/-- A ruling anchors the engine; it latches the trip and denies when rule 2 does, and
leaves the trip as it was otherwise. -/
theorem evaluate_breaks : let ruling := e.evaluate intent tick wallet age
    let anchored := some (e.startingEquity.getD (wallet.equity tick.prices))
    (e.Breaks tick wallet → ruling.1.allowed = false ∧ ruling.2.latch = (anchored, true)) ∧
    (¬ e.Breaks tick wallet → ruling.2.latch = (anchored, e.tripped)) := by
  intro ruling anchored
  have hlim : ∀ n, ((e.anchor (wallet.equity tick.prices)).limits intent n tick.ts wallet).2.latch =
      (anchored, e.tripped) := fun n => limits_latch n tick.ts
  simp only [ruling, evaluate]
  split
  · next hk =>
      exact ⟨fun hb => (nomatch hb.1.symm.trans hk), fun _ => rfl⟩
  · next hk =>
      have hk : e.config.killSwitch = false := by simpa using hk
      split
      · next hb => exact ⟨fun _ => ⟨rfl, rfl⟩, fun hn => absurd ⟨hk, hb⟩ hn⟩
      · next hb =>
          refine ⟨fun hbr => absurd hbr.2 hb, fun _ => ?_⟩
          split
          · rfl
          · split
            · rfl
            · split
              · rfl
              · split
                · exact hlim _
                · split
                  · rfl
                  · exact hlim _

variable (e intent tick wallet age) in
/-- A ruling anchors the engine, and leaves the trip as it was or latches it and denies. -/
theorem evaluate_latch : let ruling := e.evaluate intent tick wallet age
    let anchored := some (e.startingEquity.getD (wallet.equity tick.prices))
    ruling.2.latch = (anchored, e.tripped) ∨
      ruling.1.allowed = false ∧ ruling.2.latch = (anchored, true) := by
  by_cases hb : e.Breaks tick wallet
  · exact Or.inr (evaluate_breaks.1 hb)
  · exact Or.inl (evaluate_breaks.2 hb)

theorem evaluate_tripped_iff : (e.evaluate intent tick wallet age).2.tripped = true ↔
    e.tripped = true ∨ e.Breaks tick wallet := by
  by_cases hb : e.Breaks tick wallet
  · have ht : (e.evaluate intent tick wallet age).2.tripped = true :=
      congrArg Prod.snd (evaluate_breaks.1 hb).2
    exact ⟨fun _ => Or.inr hb, fun _ => ht⟩
  · have ht : (e.evaluate intent tick wallet age).2.tripped = e.tripped :=
      congrArg Prod.snd (evaluate_breaks.2 hb)
    rw [ht]
    exact ⟨Or.inl, fun h => h.resolve_right hb⟩

theorem evaluate_anchor : (e.evaluate intent tick wallet age).2.startingEquity =
    some (e.startingEquity.getD (wallet.equity tick.prices)) := by
  rcases evaluate_latch e intent tick wallet age with he | ⟨-, he⟩
  · exact congrArg Prod.fst he
  · exact congrArg Prod.fst he

theorem evaluate_tripped (h : e.tripped = true) :
    (e.evaluate intent tick wallet age).2.tripped = true := by
  rcases evaluate_latch e intent tick wallet age with he | ⟨-, he⟩
  · exact (congrArg Prod.snd he).trans h
  · exact congrArg Prod.snd he

/-- A tripped engine approves nothing. -/
theorem denied_of_tripped (h : (e.evaluate intent tick wallet age).2.tripped = true) :
    (e.evaluate intent tick wallet age).1.allowed = false := by
  rcases evaluate_latch e intent tick wallet age with he | ⟨hd, -⟩
  · refine Bool.eq_false_iff.mpr ?_
    intro ha
    have hsame : (e.evaluate intent tick wallet age).2.tripped = e.tripped := congrArg Prod.snd he
    rw [hsame, (evaluate_allowed ha).untripped] at h
    cases h
  · exact hd

end PolicyEngine

end TreasuryForge

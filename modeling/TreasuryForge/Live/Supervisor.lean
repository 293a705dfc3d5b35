/-
# `Live.Supervisor` — the guarded live step

`LiveSupervisor` of `treasuryforge/live.py`.  A step refuses on a tripped switch, a
wrong clock or stale data, asks the strategy, lets the policy rule, and submits an
approved intent through the order manager, whose dictionary, journal and executor
are an arbitrary handler of its calls (`Rail`).

`step` evaluates the policy and never registers a fill with it, where the
simulated `Runner` does.  So the rate limit and the spend budget count only what
someone else registered; `limits_hold` says that they hold in a run in which the
windows account for the fills at each approval.
-/
import TreasuryForge.Base.Window
import TreasuryForge.Core.Runner
import TreasuryForge.Live.Guards
import TreasuryForge.Orders.Manager

namespace TreasuryForge

open Resume Orders Window

/-- How the calls of the order manager are answered. -/
abbrev Rail (σ : Type) := σ → (op : Op) → Ret op × σ

inductive StepKind where
  | haltedDead
  | haltedStale
  | hold
  | denied
  | submitted
  | filled
  | open
  | rejected
  deriving DecidableEq, Repr

/-- `_OUTCOME_KIND.get(state, StepKind.SUBMITTED)` -/
def outcomeKind : OrderState → StepKind
  | .filled => .filled
  | .open => .open
  | .rejected => .rejected
  | _ => .submitted

structure StepResult where
  kind : StepKind
  reason : String
  outcome : Option Outcome := none
  deriving DecidableEq, Repr

structure LiveSupervisor (A σ : Type) where
  agent : Strategy A
  rail : Rail σ
  originFor : Intent → MarketTick → String :=
    fun _ tick => makeOriginId "live" tick.ts tick.symbol

structure LiveState (A σ : Type) where
  policy : PolicyEngine
  agent : A
  staleness : StalenessGate
  heartbeat : Option Heartbeat := none
  rail : σ

namespace LiveSupervisor

variable {A σ : Type} (sup : LiveSupervisor A σ)

/-- `self.orders.submit(intent, origin_id, tick.symbol)`, with the default number of
attempts. -/
def submit (s : LiveState A σ) (intent : Intent) (tick : MarketTick) :
    Except Raised Outcome × LiveState A σ :=
  let (result, rail) :=
    (Orders.submit intent (sup.originFor intent tick) tick.symbol 3).eval sup.rail s.rail
  (result, { s with rail := rail })

/-- The policy's turn on a proposed intent, and what follows its verdict. -/
def dispose (s : LiveState A σ) (intent : Intent) (tick : MarketTick) (wallet : SimWallet)
    (dataAgeNs : Option ℤ) : Except Raised StepResult × LiveState A σ :=
  let (verdict, policy) := s.policy.evaluate intent tick wallet dataAgeNs
  let s := { s with policy := policy }
  if verdict.allowed = false then (.ok ⟨.denied, verdict.reason, none⟩, s)
  else
    match sup.submit s intent tick with
    | (.error e, s) => (.error e, s)
    | (.ok outcome, s) => (.ok ⟨outcomeKind outcome.state, outcome.reason, some outcome⟩, s)

/-- `step`, with the two clock readings it makes. -/
def step (s : LiveState A σ) (tick : MarketTick) (wallet : SimWallet) (nowW nowM : ℤ) :
    Except Raised StepResult × LiveState A σ :=
  if DeadMansSwitch.tripped s.heartbeat = true then
    (.ok ⟨.haltedDead, "dead-man's switch tripped", none⟩, s)
  else
    match DeadMansSwitch.beat s.heartbeat ((nowW : ℚ) / nsPerS) with
    | .error e => (.error (.other e), s)
    | .ok hb =>
        let (fresh, gate) := s.staleness.check nowW nowM
        let s := { s with heartbeat := some hb, staleness := gate }
        if fresh.ok = false then (.ok ⟨.haltedStale, fresh.reason, none⟩, s)
        else
          match sup.agent.decide s.agent tick wallet with
          | (none, a) => (.ok ⟨.hold, "no signal", none⟩, { s with agent := a })
          | (some intent, a) =>
              sup.dispose { s with agent := a } intent tick wallet fresh.dataAgeNs

/-- The intent approved in a step, if it gets that far. -/
def approval (s : LiveState A σ) (tick : MarketTick) (wallet : SimWallet) (nowW nowM : ℤ) :
    Option Intent :=
  if DeadMansSwitch.tripped s.heartbeat = true then none
  else
    match DeadMansSwitch.beat s.heartbeat ((nowW : ℚ) / nsPerS) with
    | .error _ => none
    | .ok _ =>
        let fresh := (s.staleness.check nowW nowM).1
        if fresh.ok = false then none
        else
          (sup.agent.decide s.agent tick wallet).1.filter fun intent =>
            (s.policy.evaluate intent tick wallet fresh.dataAgeNs).1.allowed

/-! ## What a step can do -/

/-- What came of a step, besides the strategy's state and the guards'. -/
inductive StepCase (s : LiveState A σ) (tick : MarketTick) (wallet : SimWallet) (nowW nowM : ℤ)
    (result : Except Raised StepResult) (s' : LiveState A σ) : Option Intent → Prop
  /-- the policy was not asked -/
  | quiet : (∀ r, result = .ok r → r.kind ≠ .filled) → s'.policy = s.policy → s'.rail = s.rail →
      StepCase s tick wallet nowW nowM result s' none
  | denied {intent age} : (∀ r, result = .ok r → r.kind ≠ .filled) →
      s'.policy = (s.policy.evaluate intent tick wallet age).2 → s'.rail = s.rail →
      StepCase s tick wallet nowW nowM result s' none
  | submitted {intent told} :
      told = (Orders.submit intent (sup.originFor intent tick) tick.symbol 3).eval sup.rail s.rail →
      (sup.agent.decide s.agent tick wallet).1 = some intent →
      (s.policy.evaluate intent tick wallet (s.staleness.check nowW nowM).1.dataAgeNs).1.allowed
        = true →
      result = (told.1.map fun out => ⟨outcomeKind out.state, out.reason, some out⟩) →
      s'.policy =
        (s.policy.evaluate intent tick wallet (s.staleness.check nowW nowM).1.dataAgeNs).2 →
      s'.rail = told.2 →
      StepCase s tick wallet nowW nowM result s' (some intent)

variable {sup} {s : LiveState A σ} {tick : MarketTick} {wallet : SimWallet} {nowW nowM : ℤ}

/-- The one case analysis of `step`. -/
theorem step_cases : sup.StepCase s tick wallet nowW nowM (sup.step s tick wallet nowW nowM).1
    (sup.step s tick wallet nowW nowM).2 (sup.approval s tick wallet nowW nowM) := by
  unfold approval step
  by_cases ht : DeadMansSwitch.tripped s.heartbeat = true
  · rw [if_pos ht, if_pos ht]
    exact .quiet (by rintro _ ⟨⟩ ⟨⟩) rfl rfl
  · rw [if_neg ht, if_neg ht]
    cases DeadMansSwitch.beat s.heartbeat ((nowW : ℚ) / nsPerS) with
    | error e => exact .quiet (by rintro _ ⟨⟩) rfl rfl
    | ok hb =>
        simp only
        by_cases hf : (s.staleness.check nowW nowM).1.ok = false
        · rw [if_pos hf, if_pos hf]
          exact .quiet (by rintro _ ⟨⟩ ⟨⟩) rfl rfl
        · rw [if_neg hf, if_neg hf]
          rcases hd : sup.agent.decide s.agent tick wallet with ⟨_ | intent, a⟩
          · exact .quiet (by rintro _ ⟨⟩ ⟨⟩) rfl rfl
          · simp only [Option.filter_some]
            cases hv : (s.policy.evaluate intent tick wallet
                (s.staleness.check nowW nowM).1.dataAgeNs).1.allowed with
            | false =>
                simp only [dispose, hv, if_true, Bool.false_eq_true, if_false]
                exact .denied (by rintro _ ⟨⟩ ⟨⟩) rfl rfl
            | true =>
                simp only [dispose, hv, if_true, Bool.true_eq_false, if_false, submit]
                refine .submitted rfl (congrArg Prod.fst hd) hv ?_ ?_ ?_ <;>
                  rcases (Orders.submit intent (sup.originFor intent tick) tick.symbol 3).eval
                    sup.rail s.rail with ⟨_ | _, _⟩ <;> rfl

/-- A step that approved no intent leaves the orders alone and reports no fill. -/
theorem StepCase.unapproved {result : Except Raised StepResult} {s' : LiveState A σ}
    (h : sup.StepCase s tick wallet nowW nowM result s' none) :
    s'.rail = s.rail ∧ ∀ r, result = .ok r → r.kind ≠ .filled := by
  cases h with
  | quiet hnot _ hrail => exact ⟨hrail, hnot⟩
  | denied hnot _ hrail => exact ⟨hrail, hnot⟩

/-- A step leaves the policy alone, or has it rule on the intent the strategy proposed. -/
theorem step_policy : (sup.step s tick wallet nowW nowM).2.policy = s.policy ∨
    ∃ intent age, (sup.step s tick wallet nowW nowM).2.policy =
      (s.policy.evaluate intent tick wallet age).2 := by
  have h : sup.StepCase s tick wallet nowW nowM _ _ _ := step_cases
  generalize sup.approval s tick wallet nowW nowM = approved at h
  cases h with
  | quiet _ hpolicy _ => exact Or.inl hpolicy
  | denied _ hpolicy _ => exact Or.inr ⟨_, _, hpolicy⟩
  | submitted _ _ _ _ hpolicy _ => exact Or.inr ⟨_, _, hpolicy⟩

/-- A step that reports FILLED had the intent approved. -/
theorem step_filled {r : StepResult} (hr : (sup.step s tick wallet nowW nowM).1 = .ok r)
    (hk : r.kind = .filled) :
    ∃ intent, (sup.agent.decide s.agent tick wallet).1 = some intent ∧
      (s.policy.evaluate intent tick wallet (s.staleness.check nowW nowM).1.dataAgeNs).1.allowed
        = true := by
  have h : sup.StepCase s tick wallet nowW nowM _ _ _ := step_cases
  generalize sup.approval s tick wallet nowW nowM = approved at h
  cases h with
  | quiet hnot _ _ => exact absurd hk (hnot r hr)
  | denied hnot _ _ => exact absurd hk (hnot r hr)
  | submitted _ hd hallowed _ _ _ => exact ⟨_, hd, hallowed⟩

/-! ## Runs -/

/-- The caller's acts on a supervisor. -/
inductive Act where
  | step (tick : MarketTick) (wallet : SimWallet) (nowW nowM : ℤ)
  | observeData (wallNs : ℤ)
  /-- a fill registered with the policy by someone else -/
  | registerFill (ts : ℤ) (notional : ℚ)
  /-- the other process rewrote the heartbeat file -/
  | heartbeat (file : Option Heartbeat)

/-- A run so far: the state, the times of the ticks, and each step reported FILLED with
its tick's time and its approved notional. -/
structure Trip (A σ : Type) where
  state : LiveState A σ
  ticks : List ℤ := []
  filled : List (ℤ × ℚ) := []

variable (sup) in
/-- What a step adds to the reports. -/
def report (s : LiveState A σ) (tick : MarketTick) (wallet : SimWallet) (nowW nowM : ℤ) :
    List (ℤ × ℚ) :=
  match (sup.step s tick wallet nowW nowM).1, (sup.agent.decide s.agent tick wallet).1 with
  | .ok r, some intent => if r.kind = .filled then [(tick.ts, intent.notional tick.price)] else []
  | _, _ => []

variable (sup) in
def advance (x : Trip A σ) : Act → Trip A σ
  | .step tick wallet nowW nowM => {
      state := (sup.step x.state tick wallet nowW nowM).2
      ticks := x.ticks ++ [tick.ts]
      filled := x.filled ++ sup.report x.state tick wallet nowW nowM }
  | .observeData wallNs =>
      { x with state := { x.state with staleness := x.state.staleness.observeData wallNs } }
  | .registerFill ts notional =>
      { x with state := { x.state with policy := x.state.policy.registerFill ts notional } }
  | .heartbeat file => { x with state := { x.state with heartbeat := file } }

/-- Ticks come with non-decreasing timestamps. -/
def InOrder (x : Trip A σ) : Act → Prop
  | .step tick _ _ _ => ∀ t ∈ x.ticks, t ≤ tick.ts
  | _ => True

variable (sup) in
/-- When the policy approves an intent, its windows account for the fills reported so
far, and the notional is not negative. -/
def Accounted (x : Trip A σ) : Act → Prop
  | .step tick wallet nowW nowM =>
      let p := x.state.policy
      ∀ intent ∈ (sup.agent.decide x.state.agent tick wallet).1,
        (p.evaluate intent tick wallet (x.state.staleness.check nowW nowM).1.dataAgeNs).1.allowed
          = true →
        0 ≤ intent.notional tick.price ∧
        (since p.config.windowSteps tick.ts x.filled).length ≤ (p.recentAt tick.ts).length ∧
        load (since p.config.spendWindow tick.ts x.filled) ≤ p.spentAt tick.ts
  | _ => True

instance (x : Trip A σ) (a : Act) : Decidable (InOrder x a) :=
  match a with
  | .step tick _ _ _ => inferInstanceAs (Decidable (∀ t ∈ x.ticks, t ≤ tick.ts))
  | .observeData _ | .registerFill _ _ | .heartbeat _ => isTrue trivial

instance (x : Trip A σ) (a : Act) : Decidable (Accounted sup x a) :=
  match a with
  | .step _ _ _ _ => by unfold Accounted; infer_instance
  | .observeData _ | .registerFill _ _ | .heartbeat _ => isTrue trivial

/-- The reports so far were admitted under the limits of the configuration. -/
structure WithinLimits (cfg : PolicyConfig) (x : Trip A σ) : Prop where
  config : x.state.policy.config = cfg
  past : ∀ p ∈ x.filled, p.1 ∈ x.ticks
  rate : Admitted cfg.windowSteps cfg.maxTxPerWindow (ones x.filled)
  spend : ∀ b, cfg.maxNotionalPerWindow = some b → Admitted cfg.spendWindow (b + eps) x.filled

variable (sup) in
/-- A report is of an intent that was approved. -/
theorem report_cases (s : LiveState A σ) (tick : MarketTick) (wallet : SimWallet) (nowW nowM : ℤ) :
    sup.report s tick wallet nowW nowM = [] ∨
    ∃ intent, (sup.agent.decide s.agent tick wallet).1 = some intent ∧
      (s.policy.evaluate intent tick wallet (s.staleness.check nowW nowM).1.dataAgeNs).1.allowed
        = true ∧
      sup.report s tick wallet nowW nowM = [(tick.ts, intent.notional tick.price)] := by
  unfold report
  cases hr : (sup.step s tick wallet nowW nowM).1 with
  | error e => exact Or.inl rfl
  | ok r =>
      cases hd : (sup.agent.decide s.agent tick wallet).1 with
      | none => exact Or.inl rfl
      | some intent =>
          simp only
          split
          · next hk =>
              obtain ⟨intent', hd', hallowed⟩ := step_filled hr hk
              rw [hd] at hd'
              cases hd'
              exact Or.inr ⟨intent, rfl, hallowed, rfl⟩
          · exact Or.inl rfl

theorem step_config : (sup.step s tick wallet nowW nowM).2.policy.config = s.policy.config := by
  rcases step_policy with h | ⟨intent, age, h⟩
  · rw [h]
  · rw [h]
    exact PolicyEngine.evaluate_aged.config

theorem WithinLimits.advance {cfg : PolicyConfig} {x : Trip A σ} {a : Act} (h : WithinLimits cfg x)
    (ha : InOrder x a ∧ Accounted sup x a) : WithinLimits cfg (sup.advance x a) := by
  cases a with
  | observeData _ => exact ⟨h.config, h.past, h.rate, h.spend⟩
  | registerFill _ _ => exact ⟨h.config, h.past, h.rate, h.spend⟩
  | heartbeat _ => exact ⟨h.config, h.past, h.rate, h.spend⟩
  | step tick wallet nowW nowM =>
      obtain ⟨horder, hacc⟩ := ha
      have hconfig : (sup.step x.state tick wallet nowW nowM).2.policy.config = cfg :=
        step_config.trans h.config
      have hpast : ∀ p ∈ x.filled, p.1 ∈ x.ticks ++ [tick.ts] :=
        fun p hp => List.mem_append_left _ (h.past p hp)
      rcases report_cases sup x.state tick wallet nowW nowM with
        hnone | ⟨intent, hd, hallowed, hone⟩
      · refine ⟨hconfig, ?_, ?_, ?_⟩ <;> simp only [LiveSupervisor.advance, hnone, List.append_nil]
        · exact hpast
        · exact h.rate
        · exact h.spend
      · obtain ⟨hnonneg, hcount, hspent⟩ := hacc intent hd hallowed
        have happ := PolicyEngine.evaluate_allowed hallowed
        have hle : ∀ p ∈ x.filled, p.1 ≤ tick.ts := fun p hp => horder _ (h.past p hp)
        rw [h.config] at hcount hspent
        refine ⟨hconfig, ?_, ?_, ?_⟩ <;> simp only [LiveSupervisor.advance, hone]
        · intro p hp
          rcases List.mem_append.mp hp with hp | hp
          · exact hpast p hp
          · rw [List.mem_singleton.mp hp]
            exact List.mem_append_right _ (List.mem_singleton.mpr rfl)
        · have hrate := happ.rate
          rw [h.config] at hrate
          exact h.rate.ones_snoc hle le_rfl (hcount.trans_lt hrate)
        · intro b hb
          refine (h.spend b hb).snoc hle le_rfl hnonneg ?_
          have hbudget := happ.budget b (by rw [h.config]; exact hb)
          linarith

/-! ### A rail that fills everything -/

/-- A dictionary in memory, and an executor whose orders fill at once. -/
def fillingRail : Rail (Dict String OrderRecord)
  | d, .get o | d, .item o => (d.get? o, d)
  | d, .ids => (d.keys, d)
  | d, .store r => ((), d.set r.originId r)
  | d, .append _ _ | d, .checkpoint => ((), d)
  | d, .place r i => (.ok ⟨r.originId, some "x", "btc", i.side⟩, d.set r.originId r)
  | d, .reconcile h symbol => (.ok (.fill ⟨symbol, h.side, 1, 100, 0, 1, "quote"⟩), d)

def aSupervisor : LiveSupervisor Unit (Dict String OrderRecord) where
  agent := ⟨fun _ _ _ => (some { symbol := "BTC", side := .buy, baseAmount := 1 }, ())⟩
  rail := fillingRail

/-- One trade a window of ten, and a budget of 1000. -/
def aStart : LiveState Unit (Dict String OrderRecord) where
  policy := { config := {
    allowedSymbols := ["BTC"], maxNotionalPerTx := 200, maxTxPerWindow := 1, windowSteps := 10,
    maxDrawdownPct := 1 / 2, maxNotionalPerWindow := some 1000 } }
  agent := ()
  staleness := { maxDataAgeNs := 5, maxDataAgeNs_pos := by decide }
  rail := Dict.empty

def aTick (ts : ℤ) : MarketTick := ⟨"BTC", 100, ts⟩

def aWallet : SimWallet := { quote := 10000 }

/-- In a run with non-decreasing ticks in which the policy's windows account for the
fills reported, the steps reported FILLED keep to the rate limit in every window, and
their approved notional to the budget in every window that holds one. -/
theorem limits_hold {s : LiveState A σ} {acts : List Act}
    (h : Along sup.advance (fun x a => InOrder x a ∧ Accounted sup x a) ⟨s, [], []⟩ acts) (a : ℤ) :
    let cfg := s.policy.config
    let filled := (acts.foldl sup.advance ⟨s, [], []⟩).filled
    (within cfg.windowSteps a filled).length ≤ cfg.maxTxPerWindow ∧
    ∀ b, cfg.maxNotionalPerWindow = some b → within cfg.spendWindow a filled ≠ [] →
      load (within cfg.spendWindow a filled) ≤ b + eps := by
  have hstart : WithinLimits s.policy.config (⟨s, [], []⟩ : Trip A σ) :=
    ⟨rfl, fun _ hp => (nomatch hp), .nil, fun _ _ => .nil⟩
  have hend := Along.induction (fun _ _ hx ha => WithinLimits.advance hx ha) hstart h
  exact ⟨hend.rate.length_within, fun b hb hne => (hend.spend b hb).load_within hne⟩

/-- The caller registers the first fill, and the policy denies the second intent. -/
theorem limits_hold_registered :
    let acts : List Act := [.observeData 0, .step (aTick 1) aWallet 1 1, .registerFill 1 100,
      .step (aTick 2) aWallet 2 2]
    (acts.foldl aSupervisor.advance ⟨aStart, [], []⟩).filled = [(1, 100)] ∧
    (within 10 1 (acts.foldl aSupervisor.advance ⟨aStart, [], []⟩).filled).length ≤ 1 ∧
    load (within 10 1 (acts.foldl aSupervisor.advance ⟨aStart, [], []⟩).filled) ≤ 1000 + eps := by
  intro acts
  have hrun : (acts.foldl aSupervisor.advance ⟨aStart, [], []⟩).filled = [(1, 100)] := by
    decide +kernel
  have hlim := limits_hold (show Along aSupervisor.advance
    (fun x a => InOrder x a ∧ Accounted aSupervisor x a) ⟨aStart, [], []⟩ acts by decide +kernel) 1
  refine ⟨hrun, hlim.1, hlim.2 1000 rfl ?_⟩
  show within 10 1 (acts.foldl aSupervisor.advance ⟨aStart, [], []⟩).filled ≠ []
  rw [hrun]
  decide

/-- Without the registration the second step fills as well: two in a window that
allows one. -/
theorem unregistered_fills_exceed_limit :
    let acts : List Act := [.observeData 0, .step (aTick 1) aWallet 1 1, .step (aTick 2) aWallet 2 2]
    Along aSupervisor.advance InOrder ⟨aStart, [], []⟩ acts ∧
    ¬ (within aStart.policy.config.windowSteps 1
        (acts.foldl aSupervisor.advance ⟨aStart, [], []⟩).filled).length ≤
      aStart.policy.config.maxTxPerWindow := by
  intro acts
  decide +kernel

end LiveSupervisor

end TreasuryForge

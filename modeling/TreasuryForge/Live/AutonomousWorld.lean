/-
# `Live.AutonomousWorld` — the runner's process, its account and its past

What the calls of `Live.Autonomous` do.  The world holds the loop's variables and
the policy engine, the journals on disk, and the account: per coin, what is held,
what an entry still has in flight, and the size of the last entry.  The account is
the runner's alone.  A price, a verdict, a balance and the outcome of a submission
come from outside; an entry may land any number of orders whatever its outcome says,
but FILLED means that something executed.  A close is an immediate reduce-only
order, and what it leaves comes from outside too.  The world allows more than the code: it
does not look at the id of a submission, where the order manager answers from its record
when the order of that id is settled.

`calls` runs `_maybe_execute` by itself; `loop` runs the main loop, and may die and be
started again, with fresh books and the policy rebuilt from its journal.

`clock`, `past` and `pass` are history: the last reading of the clock, and for each
coin's turn in the loop the action its book took and the orders submitted.
-/
import TreasuryForge.Base.Dict
import TreasuryForge.Base.Host
import TreasuryForge.Live.Autonomous
import Mathlib.Tactic.Linarith

namespace TreasuryForge.Autonomous

open Resume Orders

/-- What the account has of one coin. -/
structure Exposure where
  held : ℚ := 0
  /-- of entries submitted, and not executed yet -/
  working : ℚ := 0
  /-- the size of the last entry -/
  size : ℚ := 0
  deriving DecidableEq, Repr

def Exposure.Flat (x : Exposure) : Prop := x.held = 0 ∧ x.working = 0

instance (x : Exposure) : Decidable x.Flat := by unfold Exposure.Flat; infer_instance

/-- An order handed to the order manager, and the state it was resolved to, if any. -/
structure Sent where
  coin : String
  reduceOnly : Bool
  ts : ℤ
  notional : ℚ
  state : Option OrderState
  before : Exposure
  deriving DecidableEq, Repr

/-- One coin's turn in a pass of the loop. -/
structure Pass where
  coin : String := ""
  action : Option Action := none
  sent : List Sent := []
  deriving DecidableEq, Repr

structure World where
  args : Args
  policy : PolicyEngine
  policyLog : List PolicyEngine.Snapshot := []
  books : String → ScalpBook := fun _ => {}
  lastBar : String → Option ℤ := fun _ => none
  tradeEq : String → ℚ := fun _ => 1
  journals : String → List ScalpEvent := fun _ => []
  account : Dict String Exposure := Dict.empty
  clock : ℤ := 0
  past : List Pass := []
  pass : Pass := {}

/-- How a call comes out, where that is not determined. -/
inductive Answer where
  | done
  | raised (e : Raised)
  | clock (ms : ℤ)
  | bar (b : Option ClosedBar)
  | verdict (b : Bool)
  | collateral (q : ℚ)
  | positions (ps : List Position)
  /-- an entry of this size landed these orders: executed, and still in flight -/
  | entered (size : ℚ) (landed : List (ℚ × ℚ)) (result : Except Raised Outcome)
  /-- a close left this much -/
  | closed (left : ℚ) (result : Except Raised Outcome)

/-- What the exchange does with an entry in flight. -/
inductive Env where
  | fill (coin : String) (q : ℚ)
  | expire (coin : String) (q : ℚ)

/-- The command line and the collateral a process starts with. -/
structure Boot where
  args : Args
  col₀ : ℚ

def stateOf : Except Raised Outcome → Option OrderState
  | .ok out => some out.state
  | .error _ => none

/-- The orders an entry of this size can have landed. -/
def Possible (size : ℚ) (landed : List (ℚ × ℚ)) (result : Except Raised Outcome) : Prop :=
  (∀ p ∈ landed, 0 ≤ p.1 ∧ 0 ≤ p.2 ∧ p.1 + p.2 ≤ size) ∧ 0 ≤ size ∧
  (stateOf result = some .filled → ∃ p ∈ landed, 0 < p.1)

instance (size : ℚ) (landed : List (ℚ × ℚ)) (result : Except Raised Outcome) :
    Decidable (Possible size landed result) := by unfold Possible; infer_instance

namespace World

variable (w : World)

def exposure (coin : String) : Exposure := w.account.getD coin {}

def setExposure (coin : String) (x : Exposure) : World :=
  { w with account := w.account.set coin x }

/-- All orders submitted, in order. -/
def sent : List Sent := w.past.reverse.flatMap Pass.sent ++ w.pass.sent

/-- The turn of a coin begins. -/
def begin (coin : String) : World := { w with past := w.pass :: w.past, pass := { coin := coin } }

/-- The book of the coin, and what the loop keeps with it, see a bar. -/
def observe (coin : String) (b : ClosedBar) : Fallible (Action × ℚ) × World :=
  let (result, book) := (w.books coin).observe b.high b.low b.close
  let w := { w with
    lastBar := Function.update w.lastBar coin (some b.t)
    books := Function.update w.books coin book }
  match result with
  | none => (.error (.other "float division by zero"), w)
  | some (action, r) =>
      let eq := w.tradeEq coin * (1 + r)
      (.ok (action, eq), { w with
        tradeEq := Function.update w.tradeEq coin eq
        pass := { w.pass with action := some action } })

/-- An order was submitted, and this is what the account has of the coin afterwards. -/
def send (reduceOnly : Bool) (i : Intent) (coin : String) (state : Option OrderState)
    (after : Exposure) : World :=
  let s : Sent := ⟨coin, reduceOnly, seconds w.clock, i.quoteAmount.getD 0, state, w.exposure coin⟩
  { w.setExposure coin after with pass := { w.pass with sent := w.pass.sent ++ [s] } }

/-- The list of open positions has each coin of the account that is held. -/
def Lists (ps : List Position) : Prop :=
  ∀ p ∈ w.account.items, (positionOf p.1 ps).isSome = decide (0 < p.2.held)

instance (ps : List Position) : Decidable (w.Lists ps) := by unfold Lists; infer_instance

def exec : (op : Op) → Answer → Option (Ret op × World)
  | .args, .done => some (w.args, w)
  | .time, .clock ms => some (ms, { w with clock := ms })
  | .bar coin _, .bar b => some (.ok b, w.begin coin)
  | .bar coin _, .raised e => some (.error e, w.begin coin)
  | .lastBar coin, .done => some (w.lastBar coin, w)
  | .observe coin b, .done => some (w.observe coin b)
  | .journal coin e, .done =>
      some (.ok (), { w with journals := Function.update w.journals coin (w.journals coin ++ [e]) })
  | .journal _ _, .raised e => some (.error e, w)
  | .resetEq coin, .done => some ((), { w with tradeEq := Function.update w.tradeEq coin 1 })
  | .ledger coin, .done => some (.ok (w.journals coin), w)
  | .ledger _, .raised e => some (.error e, w)
  | .deploys _ _, .verdict b => some (.ok b, w)
  | .deploys _ _, .raised e => some (.error e, w)
  | .committee _ _, .verdict b => some (.ok b, w)
  | .committee _ _, .raised e => some (.error e, w)
  | .collateral, .collateral q => some (.ok q, w)
  | .collateral, .raised e => some (.error e, w)
  | .evaluate intent tick wallet, .done =>
      let (verdict, policy) := w.policy.evaluate intent tick wallet none
      some (verdict, { w with policy := policy })
  | .rail _ _, .done => some (.ok (), w)
  | .rail _ _, .raised e => some (.error e, w)
  | .submit false i _ coin, .entered size landed result =>
      let x := w.exposure coin
      if Possible size landed result then
        some (result, w.send false i coin (stateOf result)
          ⟨x.held + (landed.map Prod.fst).sum, x.working + (landed.map Prod.snd).sum, size⟩)
      else none
  | .submit true i _ coin, .closed left result =>
      let x := w.exposure coin
      if 0 ≤ left ∧ left ≤ x.held then
        some (result, w.send true i coin (stateOf result) { x with held := left })
      else none
  | .registerFill ts notional, .done =>
      some ((), { w with policy := w.policy.registerFill ts notional })
  | .persist _, .done => some (.ok (), { w with policyLog := w.policyLog ++ [w.policy.snapshot] })
  | .persist _, .raised e => some (.error e, w)
  | .positions, .positions ps => if w.Lists ps then some (.ok ps, w) else none
  | .positions, .raised e => some (.error e, w)
  | _, _ => none

/-- Part of what is in flight executes, or is gone. -/
def env : Env → Option World
  | .fill coin q =>
      let x := w.exposure coin
      if 0 ≤ q ∧ q ≤ x.working then
        some (w.setExposure coin { x with held := x.held + q, working := x.working - q })
      else none
  | .expire coin q =>
      let x := w.exposure coin
      if 0 ≤ q ∧ q ≤ x.working then
        some (w.setExposure coin { x with working := x.working - q })
      else none

/-- `main` up to the loop: books, bars and equities are new, the policy is built from
the command line and its journal. -/
def arm (b : Boot) : World := { w with
  args := b.args
  policy := buildPolicy b.args b.col₀ w.policyLog
  books := fun _ => {}
  lastBar := fun _ => none
  tradeEq := fun _ => 1
  past := w.pass :: w.past
  pass := {} }

/-! ## What a change of the world leaves -/

variable {w} {w' : World} {coin c : String} {x : Exposure}

@[simp] theorem exposure_setExposure :
    (w.setExposure coin x).exposure c = if c = coin then x else w.exposure c :=
  Dict.getD_set _ _ _ _ _

@[simp] theorem exposure_send {ro : Bool} {i : Intent} {s : Option OrderState} :
    (w.send ro i coin s x).exposure c = if c = coin then x else w.exposure c :=
  exposure_setExposure

@[simp] theorem sent_begin : (w.begin coin).sent = w.sent := by
  simp [sent, begin]

theorem sent_send {ro : Bool} {i : Intent} {s : Option OrderState} :
    (w.send ro i coin s x).sent =
      w.sent ++ [⟨coin, ro, seconds w.clock, i.quoteAmount.getD 0, s, w.exposure coin⟩] := by
  simp [sent, send, setExposure]

/-- A coin the account has nothing of is flat. -/
theorem flat_of_all (h : ∀ p ∈ w.account.items, p.2.Flat) (coin : String) :
    (w.exposure coin).Flat :=
  Dict.getD_of_all ⟨rfl, rfl⟩ h coin

/-- A coin that is held is in the list of open positions. -/
theorem Lists.isSome {ps : List Position} (h : w.Lists ps) (hx : 0 < (w.exposure coin).held) :
    (positionOf coin ps).isSome = true := by
  unfold exposure Dict.getD at hx
  cases hg : w.account.get? coin with
  | none =>
      rw [hg] at hx
      exact absurd hx (lt_irrefl 0)
  | some x =>
      rw [hg] at hx
      rw [h _ (Dict.get?_eq_some.mp hg)]
      exact decide_eq_true hx

end World

/-- From `x` to `y` without an order of the runner: what is in flight executes or is
gone. -/
structure Exposure.Settles (x y : Exposure) : Prop where
  held : x.held ≤ y.held
  working : 0 ≤ y.working
  less : y.working ≤ x.working
  total : y.held + y.working ≤ x.held + x.working
  size : y.size = x.size

theorem Exposure.Settles.flat {x y : Exposure} (h : x.Settles y) (hx : x.Flat) : y.Flat := by
  obtain ⟨hh, hw⟩ := hx
  have hw' : y.working = 0 := le_antisymm (h.less.trans_eq hw) h.working
  have hh' : y.held = 0 := by
    have h₁ := h.held
    have h₂ := h.total
    linarith
  exact ⟨hh', hw'⟩

theorem World.env_eq_some {w w' : World} {e : Env} (h : w.env e = some w') :
    ∃ coin y, (w.exposure coin).Settles y ∧ w' = w.setExposure coin y := by
  cases e with
  | fill coin q =>
      simp only [World.env] at h
      split at h
      · next hq =>
          cases h
          refine ⟨coin, _, ?_, rfl⟩
          constructor <;> simp only <;> linarith [hq.1, hq.2]
      · cases h
  | expire coin q =>
      simp only [World.env] at h
      split at h
      · next hq =>
          cases h
          refine ⟨coin, _, ?_, rfl⟩
          constructor <;> simp only <;> linarith [hq.1, hq.2]
      · cases h

/-- The first start, with what the journals hold. -/
def start (b : Boot) (policyLog : List PolicyEngine.Snapshot)
    (journals : String → List ScalpEvent) : World where
  args := b.args
  policy := buildPolicy b.args b.col₀ policyLog
  policyLog := policyLog
  journals := journals

/-- One call of `_maybe_execute`. -/
structure Call where
  coin : String
  action : Action
  tier : ℚ
  price : ℚ

/-- `_maybe_execute`, called from outside. -/
def calls : Host World Op Ret Raised Unit Call Answer Env Boot where
  entry c := maybeExecute c.coin c.action c.tier c.price
  exec := World.exec
  env := World.env
  finish w _ _ := w
  reboot _ _ := none

/-- The main loop, a pass a command. -/
def loop : Host World Op Ret Raised Unit Unit Answer Env Boot where
  entry _ := cycle
  exec := World.exec
  env := World.env
  finish w _ _ := { w with past := w.pass :: w.past, pass := {} }
  reboot w b := some (w.arm b)

end TreasuryForge.Autonomous

/-
# `Live.Autonomous` — the autonomous runner as a program

`scripts/run_autonomous.py`, armed.  One pass of the main loop (`cycle`) looks at
each coin's last closed bar, lets the coin's paper book step, writes an EXIT to the
coin's journal, and calls `maybeExecute`, which asks the gate, and then either has
the policy rule on a new entry and submits it, or looks the position up and submits
a reduce-only close.  An exception inside a coin's pass is swallowed there.

The loop's local variables (books, last bars, running equities), the policy engine
and the surroundings are behind calls.  The gate's and the committee's verdicts come
from outside, and so does what a submission leads to: the order manager and its
executor may end with any outcome.  Messages and their deduplication are left out.
-/
import TreasuryForge.Base.Prog
import TreasuryForge.Core.Policy
import TreasuryForge.Live.ScalpBook
import TreasuryForge.Orders.Record

namespace TreasuryForge.Autonomous

open Resume Orders

/-- `_HL_MIN` -/
def hlMin : ℚ := 10

/-- The parsed command line, and the coins found at start-up. -/
structure Args where
  coins : List String
  tier : ℚ := 1 / 100
  maxNotionalPct : ℚ := 1 / 5
  maxSpendPct : ℚ := 1 / 2
  maxDd : ℚ := 1 / 10
  maxTx : ℕ := 5
  policyWindow : ℤ := 3600
  deriving Repr

/-- A closed 1-minute bar; `t` in milliseconds. -/
structure ClosedBar extends Bar where
  t : ℤ
  deriving DecidableEq, Repr

/-- A `"kind": "scalp"` line of a coin's journal. -/
structure ScalpEvent where
  ts : ℤ
  r : ℚ
  exit : String
  deriving DecidableEq, Repr

structure Position where
  coin : String
  size : ℚ
  deriving DecidableEq, Repr

/-- The calls of the runner. -/
inductive Op where
  | args
  /-- `time.time()`, in milliseconds -/
  | time
  | bar (coin : String) (nowMs : ℤ)
  | lastBar (coin : String)
  /-- the loop's own bookkeeping: last bar, book, running equity -/
  | observe (coin : String) (b : ClosedBar)
  | journal (coin : String) (e : ScalpEvent)
  | resetEq (coin : String)
  | ledger (coin : String)
  /-- `_GATE.evaluate(...).deploy` -/
  | deploys (rs : List ℚ) (ts : List ℤ)
  /-- `Committee().review(...).approved` -/
  | committee (rs : List ℚ) (ts : List ℤ)
  | collateral
  | evaluate (intent : Intent) (tick : MarketTick) (wallet : SimWallet)
  /-- the venue client, the executor on it, and the order manager on its journal -/
  | rail (maxNotionalUsd : ℚ) (reduceOnly : Bool)
  | submit (reduceOnly : Bool) (intent : Intent) (originId coin : String)
  | registerFill (ts : ℤ) (notional : ℚ)
  /-- the engine's snapshot, appended to the policy journal -/
  | persist (ts : ℤ)
  | positions

/-- What a call answers with, when it can also raise. -/
abbrev Fallible (α : Type) := Except Raised α

def Ret : Op → Type
  | .args => Args
  | .time => ℤ
  | .bar _ _ => Fallible (Option ClosedBar)
  | .lastBar _ => Option ℤ
  | .observe _ _ => Fallible (Action × ℚ)
  | .journal _ _ | .rail _ _ | .persist _ => Fallible Unit
  | .resetEq _ | .registerFill _ _ => Unit
  | .ledger _ => Fallible (List ScalpEvent)
  | .deploys _ _ | .committee _ _ => Fallible Bool
  | .collateral => Fallible ℚ
  | .evaluate _ _ _ => Verdict
  | .submit _ _ _ _ => Fallible Outcome
  | .positions => Fallible (List Position)

abbrev M := Prog Op Ret Raised

def ask (op : Op) : M (Ret op) := Prog.ask op

/-- The value of a call that can raise. -/
def value {α : Type} : Fallible α → M α
  | .ok a => .ret a
  | .error e => .raise e

/-- `int(time.time())` -/
def seconds (ms : ℤ) : ℤ := ms / 1000

/-! ## `_gate_open` -/

/-- The returns and the timestamps (where there is one) the gate looks at. -/
def gateInputs (evs : List ScalpEvent) : List ℚ × List ℤ :=
  (evs.map ScalpEvent.r, (evs.map ScalpEvent.ts).filter (· ≠ 0))

def gateOpen (coin : String) : M Bool := do
  let evs ← value (← ask (.ledger coin))
  let deploy ← value (← ask (.deploys (gateInputs evs).1 (gateInputs evs).2))
  if deploy = false then return false
  else value (← ask (.committee (gateInputs evs).1 (gateInputs evs).2))

/-! ## `_maybe_execute` -/

def entryIntent (coin : String) (notional : ℚ) : Intent :=
  { symbol := coin, side := .buy, baseAmount := 0, quoteAmount := some notional,
    reason := "autonomous scalp" }

def closeIntent (coin : String) (size : ℚ) : Intent :=
  { symbol := coin, side := if 0 < size then .sell else .buy, baseAmount := |size|,
    reason := "autonomous close" }

/-- `out.state.value in ("FILLED", "OPEN")` -/
def countsAsTrade (s : OrderState) : Bool := s.value = "FILLED" ∨ s.value = "OPEN"

/-- After the submission of an entry: count it with the policy and persist the
windows. -/
def account (notional : ℚ) (out : Outcome) : M Unit := do
  if countsAsTrade out.state then
    let t ← ask .time
    ask (.registerFill (seconds t) notional)
    let t' ← ask .time
    value (← ask (.persist (seconds t')))
  else return ()

def executeEnter (coin : String) (notional price : ℚ) (collateral : ℚ) : M Unit := do
  if notional < hlMin then return ()
  else
    let now ← ask .time
    let intent := entryIntent coin notional
    let verdict ← ask (.evaluate intent ⟨coin, price, seconds now⟩ { quote := collateral })
    if verdict.allowed = false then return ()
    else
      value (← ask (.rail (notional * (6 / 5)) false))
      let s ← ask .time
      let out ← value (← ask (.submit false intent s!"auto:{coin}:{seconds s}" coin))
      account notional out

/-- The first open position of the coin. -/
def positionOf (coin : String) (ps : List Position) : Option Position :=
  ps.find? fun p => p.coin = coin ∧ 0 < |p.size|

def executeClose (coin : String) : M Unit := do
  let ps ← value (← ask .positions)
  match positionOf coin ps with
  | none => return ()
  | some pos =>
      value (← ask (.rail 1000000000 true))
      let s ← ask .time
      let _ ← value (← ask (.submit true (closeIntent coin pos.size)
        s!"auto:close:{coin}:{seconds s}" coin))
      return ()

def maybeExecute (coin : String) (action : Action) (tier price : ℚ) : M Unit := do
  if (← gateOpen coin) = false then return ()
  else
    let collateral ← value (← ask .collateral)
    if action = .enter then executeEnter coin (tier * collateral) price collateral
    else executeClose coin

/-! ## The main loop -/

/-- What follows a bar's action. -/
def follow (tier : ℚ) (coin : String) (b : ClosedBar) (action : Action) (eq : ℚ) : M Unit :=
  if action.isExit = true then do
    value (← ask (.journal coin ⟨Int.tdiv b.t 1000, eq - 1, action.value⟩))
    ask (.resetEq coin)
    maybeExecute coin action tier b.close
  else if action = .enter then maybeExecute coin action tier b.close
  else return ()

/-- The body of the `try` for one coin. -/
def coinBody (tier : ℚ) (nowMs : ℤ) (coin : String) : M Unit := do
  match ← value (← ask (.bar coin nowMs)) with
  | none => return ()
  | some b =>
      let last : Option ℤ ← ask (.lastBar coin)
      if last = some b.t then return ()
      else
        let (action, eq) ← value (← ask (.observe coin b))
        follow tier coin b action eq

/-- `except Exception` prints and goes on with the next coin. -/
def coinPass (tier : ℚ) (nowMs : ℤ) (coin : String) : M Unit :=
  (coinBody tier nowMs coin).tryCatch fun _ => return ()

def coinPasses (tier : ℚ) (nowMs : ℤ) : List String → M Unit
  | [] => return ()
  | coin :: rest => do
      coinPass tier nowMs coin
      coinPasses tier nowMs rest

/-- One pass of `while True`. -/
def cycle : M Unit := do
  let args ← ask .args
  let nowMs ← ask .time
  coinPasses args.tier nowMs args.coins

/-! ## `_build_policy` -/

def buildPolicy (args : Args) (col₀ : ℚ) (snaps : List PolicyEngine.Snapshot) : PolicyEngine :=
  let policy : PolicyEngine := { config := {
    allowedSymbols := args.coins
    maxNotionalPerTx := args.maxNotionalPct * col₀
    maxTxPerWindow := args.maxTx
    windowSteps := args.policyWindow
    maxDrawdownPct := args.maxDd
    minNotionalPerTx := some hlMin
    maxNotionalPerWindow := some (args.maxSpendPct * col₀)
    spendWindowSteps := some args.policyWindow
    feeRate := 1 / 1000 } }
  match snaps.getLast? with
  | some snap => policy.restore snap
  | none => policy

/-- No state of an order has one of the values the accounting asks for. -/
theorem countsAsTrade_eq_false (s : OrderState) : countsAsTrade s = false := by
  cases s <;> decide

end TreasuryForge.Autonomous

/-
# `Orders.Manager` — the idempotent order manager as a program

`IdempotentOrderManager` of `treasuryforge/orders.py`, function by function, as
programs over the calls it makes: its own dictionary of records, its journal, and
the two-phase executor.

A record is a mutable object that sits in the dictionary.  Here a function that
changes a record returns the new one, and `store` writes it back, so `get` and
`item` see what the object's fields are at that moment.  `place` counts the
attempt on the record and sends the POST in one call: between the two nothing
else can look at the record, and a crash loses the count either way.
-/
import TreasuryForge.Base.Prog
import TreasuryForge.Orders.Record

namespace TreasuryForge.Orders

open Resume

/-- The calls of the manager. -/
inductive Op where
  /-- `self._orders.get(origin_id)` -/
  | get (originId : String)
  /-- the keys of `list(self._orders.items())` -/
  | ids
  /-- the record of one entry of that list -/
  | item (originId : String)
  /-- the record's new fields, and `self._orders[rec.origin_id] = rec` -/
  | store (r : OrderRecord)
  | append (event : String) (r : OrderRecord)
  | checkpoint
  | place (r : OrderRecord) (intent : Intent)
  | reconcile (handle : OrderHandle) (symbol : String)
  deriving DecidableEq

def Ret : Op → Type
  | .get _ | .item _ => Option OrderRecord
  | .ids => List String
  | .store _ | .append _ _ | .checkpoint => Unit
  | .place _ _ => Except Raised OrderHandle
  | .reconcile _ _ => Except Raised ReconcileResult

abbrev M := Prog Op Ret Raised

def ask (op : Op) : M (Ret op) := Prog.ask op

/-! ## Internals -/

/-- Audit line first, then the checkpoint. -/
def persist (r : OrderRecord) (event : String) : M Unit := do
  ask (.store r)
  ask (.append event r)
  ask .checkpoint

/-- `_set` -/
def setState (r : OrderRecord) (state : OrderState) (reason : String) : M OrderRecord := do
  let r := { r with state := state, reason := reason }
  persist r state.value
  return r

/-- `_outcome` -/
def outcome (r : OrderRecord) : M Outcome :=
  match r.fill with
  | none => return ⟨r.originId, r.state, none, r.reason⟩
  | some d =>
      match d.toFill with
      | none => .raise (.other s!"{d.side} is not a valid Side")
      | some fill => return ⟨r.originId, r.state, some fill, r.reason⟩

/-- `_try_fill`: whether it filled, and the record after. -/
def tryFill (r : OrderRecord) (symbol : String) : M (Bool × OrderRecord) := do
  match ← ask (.reconcile r.handle (if symbol = "" then r.symbol else symbol)) with
  | .error e => .raise e
  | .ok (.unfilled _) => return (false, r)
  | .ok (.fill f) =>
      let r ← setState { r with fill := some (asdict f) } .filled ""
      return (true, r)

/-- `_place_once` -/
def placeOnce (r : OrderRecord) (intent : Intent) : M OrderRecord := do
  let r := { r with attempts := r.attempts + 1 }
  match ← ask (.place r intent) with
  | .error (.other e) => .raise (.other e)
  | .error (.bitso e) =>
      if e.category.definitelyNotLanded then setState r .rejected e.text
      else setState r .unknown e.text
  | .ok handle => setState { r with oid := handle.oid, book := handle.book } .submitted ""

/-- `while rec.attempts < max_attempts`, with the passes that are left as fuel: each
pass adds one attempt. -/
def placeLoop (intent : Intent) (symbol : String) : ℕ → OrderRecord → M Outcome
  | 0, r => outcome r
  | n + 1, r => do
      let r ← placeOnce r intent
      if r.state = .rejected then outcome r
      else
        let (filled, r) ← tryFill r symbol
        if filled then outcome r
        else if r.state ≠ .unknown then
          let r ← setState r .open "resting"
          outcome r
        else placeLoop intent symbol n r

/-- The passes left for a record. -/
def passes (maxAttempts : ℤ) (r : OrderRecord) : ℕ := (maxAttempts - r.attempts).toNat

/-- `_resolve` -/
def resolve (r : OrderRecord) (intent : Intent) (symbol : String) (maxAttempts : ℤ) :
    M Outcome :=
  if r.state.terminal then outcome r
  else if r.state = .submitted ∨ r.state = .open ∨ r.state = .unknown then do
    let (filled, r) ← tryFill r symbol
    if filled then outcome r
    else if r.state ≠ .unknown then
      let r ← setState r .open "resting"
      outcome r
    else placeLoop intent symbol (passes maxAttempts r) r
  else placeLoop intent symbol (passes maxAttempts r) r

/-! ## The public calls -/

def submit (intent : Intent) (originId symbol : String) (maxAttempts : ℤ) : M Outcome := do
  match ← ask (.get originId) with
  | some r => resolve r intent symbol maxAttempts
  | none =>
      let r : OrderRecord := {
        originId := originId, state := .placing, symbol := symbol,
        side := if intent.side = .buy then "buy" else "sell" }
      persist r "placing"
      resolve r intent symbol maxAttempts

/-- One pass of the loop in `recover`; `none` for a settled order. -/
def recoverOne (symbolOf : Dict String String) (originId : String) : M (Option Outcome) := do
  match ← ask (.item originId) with
  | none => return none
  | some r =>
      if r.state.terminal then return none
      else
        let symbol := if r.symbol = "" then symbolOf.getD originId "" else r.symbol
        let (filled, r) ← tryFill r symbol
        if filled = false ∧ r.oid.isSome then
          let r ← setState r .open "resting (recovered)"
          return some (← outcome r)
        else return some (← outcome r)

def recoverAll (symbolOf : Dict String String) : List String → M (List Outcome)
  | [] => return []
  | originId :: rest => do
      let o ← recoverOne symbolOf originId
      let os ← recoverAll symbolOf rest
      return o.toList ++ os

def recover (symbolOf : Dict String String) : M (List Outcome) := do
  let ids ← ask .ids
  recoverAll symbolOf ids

/-- `make_origin_id` -/
def makeOriginId (strategy : String) (step : ℤ) (symbol : String) : String :=
  s!"{strategy}:{symbol}:{step}"

end TreasuryForge.Orders

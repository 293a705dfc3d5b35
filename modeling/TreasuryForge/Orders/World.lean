/-
# `Orders.World` — one order manager, its journal, and the exchange

The system around `orders.py`.  The world holds the manager's
dictionary, the journal's two files, and the exchange; the host runs `submit` and
`recover` on it, one call at a time.  Between two calls a resting order may trade
or leave the book, and the process may die; what survives is the disk and the
exchange, and the dictionary is read back from the checkpoint (`__post_init__`).

A POST that lands may be answered with its handle, or its answer may be lost; a
definitive rejection comes with no landing.  `trace` is the history of the calls
to the executor, which no function reads.
-/
import TreasuryForge.Base.Host
import TreasuryForge.Orders.Manager
import TreasuryForge.Orders.Exchange

namespace TreasuryForge.Orders

open Resume

/-- A call to the executor; a reconcile with what it said. -/
inductive Call where
  | place (originId : String)
  | unfilled (originId : String)
  | filled (originId : String)
  | failed (originId : String)
  deriving DecidableEq, Repr

structure World where
  orders : Dict String OrderRecord := Dict.empty
  ledger : List (String × RecordDict) := []
  disk : Option (Dict String RecordDict) := none
  exch : Exchange := {}
  trace : List Call := []

inductive Cmd where
  | submit (intent : Intent) (originId symbol : String) (maxAttempts : ℤ)
  | recover (symbolOf : Dict String String)

/-- How a call comes out, where that is not determined. -/
inductive Answer where
  | done
  /-- the POST landed under this order id, and the handle carries it if `told` -/
  | accepted (oid : String) (told : Bool) (book : String)
  /-- the POST failed with this error, after landing or not -/
  | failed (landed : Option String) (e : Raised)
  /-- the reconcile saw the trades -/
  | trades
  /-- the reconcile's own query came back undecided -/
  | pending (reason : String)
  | raised (e : Raised)
  deriving DecidableEq

/-- What the exchange does on its own. -/
inductive Env where
  | execute (oid : String) (t : Trade) (last : Bool)
  | expire (oid : String)
  deriving DecidableEq

namespace Env

/-- The order the event is about. -/
def oid : Env → String
  | .execute oid _ _ | .expire oid => oid

/-- What it does to that order, when it rests. -/
def act : Env → Order → Order
  | .execute _ t last, r => { r with active := !last, trades := r.trades ++ [t] }
  | .expire _, r => { r with active := false }

@[simp] theorem act_originId (e : Env) (r : Order) : (e.act r).originId = r.originId := by
  cases e <;> rfl

end Env

def ReconcileResult.call (originId : String) : ReconcileResult → Call
  | .fill _ => .filled originId
  | .unfilled _ => .unfilled originId

namespace World

/-- The record of an order in the checkpoint, as a restart would read it. -/
def saved (w : World) (o : String) : Option OrderRecord :=
  w.disk.bind fun d => (d.get? o).bind OrderRecord.ofDict

/-- A POST was sent, and this is the exchange after it. -/
def posted (w : World) (r : OrderRecord) (x : Exchange) : World :=
  { w with
    orders := w.orders.set r.originId r
    exch := x
    trace := w.trace ++ [.place r.originId] }

/-- A reconcile was sent. -/
def asked (w : World) (c : Call) : World := { w with trace := w.trace ++ [c] }

def store (w : World) (r : OrderRecord) : World :=
  { w with orders := w.orders.set r.originId r }

def append (w : World) (event : String) (r : OrderRecord) : World :=
  { w with ledger := w.ledger ++ [(event, r.toDict)] }

/-- `json.dump(state, sort_keys=True)`, put in place atomically. -/
def checkpoint (w : World) : World :=
  { w with disk := some ((w.orders.mapVals OrderRecord.toDict).sortKeys (· ≤ ·)) }

def exec (v : Venue) (w : World) : (op : Op) → Answer → Option (Ret op × World)
  | .get o, .done => some (w.orders.get? o, w)
  | .ids, .done => some (w.orders.keys, w)
  | .item o, .done => some (w.orders.get? o, w)
  | .store r, .done => some ((), w.store r)
  | .append event r, .done => some ((), w.append event r)
  | .checkpoint, .done => some ((), w.checkpoint)
  | .place r i, .accepted oid told book =>
      (w.exch.land r.originId oid).map fun x =>
        (.ok ⟨r.originId, if told then some oid else none, book, i.side⟩, w.posted r x)
  | .place r _, .failed none e => some (.error e, w.posted r w.exch)
  | .place r _, .failed (some oid) e =>
      if e.definitive = true then none
      else (w.exch.land r.originId oid).map fun x => (.error e, w.posted r x)
  | .reconcile h symbol, .trades =>
      let result := v.reconcile h symbol (v.query w.exch h)
      some (.ok result, w.asked (result.call h.originId))
  | .reconcile h _, .pending reason =>
      if v = .bitso then some (.ok (.unfilled reason), w.asked (.unfilled h.originId)) else none
  | .reconcile h _, .raised e => some (.error e, w.asked (.failed h.originId))
  | _, _ => none

def env (w : World) : Env → World
  | .execute oid t last => { w with exch := w.exch.execute oid t last }
  | .expire oid => { w with exch := w.exch.expire oid }

/-- `__post_init__`: the dictionary comes back from the checkpoint. -/
def reboot (w : World) : Option World :=
  match w.disk with
  | none => some { w with orders := Dict.empty }
  | some d => (d.traverse OrderRecord.ofDict).map fun orders => { w with orders := orders }

end World

/-- The manager's process, on an executor of the given venue. -/
def host (v : Venue) : Host World Op Ret Raised (List Outcome) Cmd Answer Env Unit where
  entry
    | .submit intent originId symbol maxAttempts => do
        return [← submit intent originId symbol maxAttempts]
    | .recover symbolOf => recover symbolOf
  exec := World.exec v
  env w e := some (w.env e)
  finish w _ _ := w
  reboot w _ := w.reboot

namespace World

variable {v : Venue} {w w' : World} {a : Answer} {r : OrderRecord} {o : String}

/-! ## What each call does -/

theorem exec_get {x : Option OrderRecord} (h : w.exec v (.get o) a = some (x, w')) :
    x = w.orders.get? o ∧ w' = w := by
  cases a <;> cases h
  exact ⟨rfl, rfl⟩

theorem exec_item {x : Option OrderRecord} (h : w.exec v (.item o) a = some (x, w')) :
    x = w.orders.get? o ∧ w' = w := by
  cases a <;> cases h
  exact ⟨rfl, rfl⟩

theorem exec_ids {x : List String} (h : w.exec v .ids a = some (x, w')) : w' = w := by
  cases a <;> cases h
  rfl

theorem exec_store {x : Unit} (h : w.exec v (.store r) a = some (x, w')) : w' = w.store r := by
  cases a <;> cases h
  rfl

theorem exec_append {x : Unit} {event : String} (h : w.exec v (.append event r) a = some (x, w')) :
    w' = w.append event r := by
  cases a <;> cases h
  rfl

theorem exec_checkpoint {x : Unit} (h : w.exec v .checkpoint a = some (x, w')) :
    w' = w.checkpoint := by
  cases a <;> cases h
  rfl

/-- A POST lands, with or without its answer getting back, or is refused. -/
theorem exec_place {x : Except Raised OrderHandle} {i : Intent}
    (h : w.exec v (.place r i) a = some (x, w')) :
    (∃ oid exch, w.exch.land r.originId oid = some exch ∧ w' = w.posted r exch ∧
      ((∃ hd, x = .ok hd) ∨ ∃ e, x = .error e ∧ e.definitive = false)) ∨
    (∃ e, a = .failed none e ∧ x = .error e ∧ w' = w.posted r w.exch) := by
  cases a with
  | accepted oid told book =>
      obtain ⟨exch, hl, he⟩ := Option.map_eq_some_iff.mp h
      cases he
      exact Or.inl ⟨oid, exch, hl, rfl, Or.inl ⟨_, rfl⟩⟩
  | failed landed e =>
      cases landed with
      | none => cases h; exact Or.inr ⟨e, rfl, rfl, rfl⟩
      | some oid =>
          simp only [exec] at h
          split at h
          · cases h
          · next hd =>
              obtain ⟨exch, hl, he⟩ := Option.map_eq_some_iff.mp h
              cases he
              exact Or.inl ⟨oid, exch, hl, rfl, Or.inr ⟨e, rfl, by simpa using hd⟩⟩
  | _ => cases h

/-- A reconcile reports what the venue made of the trades, or no fill without having
seen them, or raises; it changes nothing but the history. -/
theorem exec_reconcile {x : Except Raised ReconcileResult} {h : OrderHandle} {symbol : String}
    (hx : w.exec v (.reconcile h symbol) a = some (x, w')) :
    (a = .trades ∧ x = .ok (v.reconcile h symbol (v.query w.exch h)) ∧
      w' = w.asked ((v.reconcile h symbol (v.query w.exch h)).call h.originId)) ∨
    (∃ reason, a = .pending reason ∧ x = .ok (.unfilled reason) ∧
      w' = w.asked (.unfilled h.originId)) ∨
    (∃ e, a = .raised e ∧ x = .error e ∧ w' = w.asked (.failed h.originId)) := by
  cases a with
  | trades => cases hx; exact Or.inl ⟨rfl, rfl, rfl⟩
  | pending reason =>
      simp only [exec] at hx
      split at hx
      · cases hx; exact Or.inr (Or.inl ⟨reason, rfl, rfl, rfl⟩)
      · cases hx
  | raised e => cases hx; exact Or.inr (Or.inr ⟨e, rfl, rfl, rfl⟩)
  | _ => cases hx

/-! ## Memory and disk -/

@[simp] theorem saved_env (e : Env) : (w.env e).saved o = w.saved o := by cases e <;> rfl

theorem exch_env (w : World) (e : Env) : (w.env e).exch = w.exch.amend e.oid e.act := by
  cases e <;> rfl

@[simp] theorem orders_env (e : Env) : (w.env e).orders = w.orders := by cases e <;> rfl

@[simp] theorem trace_env (e : Env) : (w.env e).trace = w.trace := by cases e <;> rfl

/-- A checkpoint saves what memory holds. -/
@[simp] theorem saved_checkpoint : w.checkpoint.saved o = w.orders.get? o := by
  simp only [saved, checkpoint, Option.bind_some, Dict.get?_sortKeys, Dict.get?_mapVals]
  cases w.orders.get? o <;> simp

/-- A restart finds what was saved, and keeps everything else. -/
theorem reboot_eq_some (h : w.reboot = some w') :
    (∀ o, w'.orders.get? o = w.saved o) ∧ (∀ o, w'.saved o = w.saved o) ∧
      w'.exch = w.exch ∧ w'.trace = w.trace := by
  unfold reboot at h
  cases hd : w.disk with
  | none =>
      rw [hd] at h
      cases h
      refine ⟨?_, ?_, rfl, rfl⟩
      · intro o
        simp [saved, hd]
      · intro o
        simp [saved, hd]
  | some d =>
      rw [hd] at h
      obtain ⟨orders, ho, rfl⟩ := Option.map_eq_some_iff.mp h
      refine ⟨?_, ?_, rfl, rfl⟩
      · intro o
        simp [saved, hd, Dict.get?_traverse ho]
      · intro o
        simp [saved, hd]

end World

end TreasuryForge.Orders

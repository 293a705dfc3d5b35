/-
# `Orders.Exchange` — the other side of the wire

The exchange as the module docstring of `orders.py` describes it: it holds the
orders that landed, a resting one may trade at any moment and in several parts,
and a POST with an `origin_id` lands only while no order with that id is ACTIVE.

A venue says how the executor reads it back.  Bitso's `reconcile` asks for the
trades of the order id when it knows one and of the `origin_id` otherwise;
Hyperliquid's always matches by the `cloid` derived from the `origin_id`.  Both
aggregate the trades they see into one fill at the volume-weighted price;
`Venue.reconcile_fill` says that its size, notional and fee are the sums over these
trades.
-/
import Mathlib.Data.Rat.Defs
import Mathlib.Algebra.Order.BigOperators.Group.List
import Mathlib.Tactic.FieldSimp
import Mathlib.Tactic.Positivity
import Mathlib.Tactic.Linarith
import TreasuryForge.Orders.Record

namespace TreasuryForge.Orders

/-- One execution of an order; its size is positive. -/
structure Trade where
  tid : ℤ
  size : ℚ
  price : ℚ
  fee : ℚ
  size_pos : 0 < size
  deriving DecidableEq

/-- An order that landed. -/
structure Order where
  oid : String
  originId : String
  active : Bool
  trades : List Trade
  deriving DecidableEq

structure Exchange where
  orders : List Order := []
  deriving DecidableEq

namespace Exchange

def of (x : Exchange) (o : String) : List Order := x.orders.filter fun r => r.originId = o

/-- An order with this `origin_id` landed. -/
def Landed (x : Exchange) (o : String) : Prop := ∃ r ∈ x.orders, r.originId = o

/-- An order with this `origin_id` is resting. -/
def Active (x : Exchange) (o : String) : Prop := ∃ r ∈ x.orders, r.originId = o ∧ r.active = true

/-- An order with this `origin_id` has executed, in part or in full. -/
def Executed (x : Exchange) (o : String) : Prop := ∃ r ∈ x.orders, r.originId = o ∧ r.trades ≠ []

instance (x : Exchange) (o : String) : Decidable (x.Landed o) := by
  unfold Landed; infer_instance

instance (x : Exchange) (o : String) : Decidable (x.Active o) := by
  unfold Active; infer_instance

instance (x : Exchange) (o : String) : Decidable (x.Executed o) := by
  unfold Executed; infer_instance

/-- A POST arrives: it lands as a resting order under a fresh order id, unless an
order with its `origin_id` is resting. -/
def land (x : Exchange) (o oid : String) : Option Exchange :=
  if x.Active o ∨ (∃ r ∈ x.orders, r.oid = oid) then none
  else some ⟨x.orders ++ [⟨oid, o, true, []⟩]⟩

/-- Replace the resting order with this id. -/
def amend (x : Exchange) (oid : String) (f : Order → Order) : Exchange :=
  ⟨x.orders.map fun r => if r.oid = oid ∧ r.active = true then f r else r⟩

/-- A resting order trades; with `last` it is done. -/
def execute (x : Exchange) (oid : String) (t : Trade) (last : Bool) : Exchange :=
  x.amend oid fun r => { r with active := !last, trades := r.trades ++ [t] }

/-- A resting order leaves the book. -/
def expire (x : Exchange) (oid : String) : Exchange :=
  x.amend oid fun r => { r with active := false }

/-- All trades under an `origin_id`. -/
def tradesOf (x : Exchange) (o : String) : List Trade := (x.of o).flatMap Order.trades

/-- The trades of one order id. -/
def tradesOfOid (x : Exchange) (oid : String) : List Trade :=
  (x.orders.filter fun r => r.oid = oid).flatMap Order.trades

/-- The orders of `o` that executed. -/
def executions (x : Exchange) (o : String) : List Order := (x.of o).filter fun r => r.trades ≠ []

end Exchange

/-! ## Reading the trades back -/

inductive Venue where
  | bitso
  | hyperliquid
  deriving DecidableEq, Repr

def totalSize (ts : List Trade) : ℚ := (ts.map Trade.size).sum

def totalNotional (ts : List Trade) : ℚ := (ts.map fun t => t.size * t.price).sum

def totalFee (ts : List Trade) : ℚ := (ts.map Trade.fee).sum

/-- `max(..., default=0)` of the trade ids or times. -/
def lastTid : List Trade → ℤ
  | [] => 0
  | t :: ts => ts.foldl (fun m u => max m u.tid) t.tid

namespace Venue

/-- The trades a reconcile of this handle is answered with. -/
def query (v : Venue) (x : Exchange) (h : OrderHandle) : List Trade :=
  match v, h.oid with
  | .bitso, some oid => if oid = "" then x.tradesOf h.originId else x.tradesOfOid oid
  | .bitso, none => x.tradesOf h.originId
  | .hyperliquid, _ => x.tradesOf h.originId

/-- `reconcile` on an answered query. -/
def reconcile (v : Venue) (h : OrderHandle) (symbol : String) (ts : List Trade) : ReconcileResult :=
  match v with
  | .bitso =>
      if ts = [] then .unfilled "no fills yet"
      else if totalSize ts ≤ 0 then .unfilled "zero base filled"
      else .fill {
        symbol := symbol, side := h.side, baseAmount := totalSize ts,
        price := totalNotional ts / totalSize ts, fee := totalFee ts, ts := lastTid ts,
        feeCurrency := if h.side = .buy then "base" else "quote" }
  | .hyperliquid =>
      if ts = [] then .unfilled "no fills for cloid"
      else .fill {
        symbol := if symbol = "" then h.book else symbol, side := h.side,
        baseAmount := totalSize ts,
        price := if 0 < totalSize ts then totalNotional ts / totalSize ts else 0,
        fee := totalFee ts, ts := lastTid ts, feeCurrency := "quote" }

end Venue

/-- The fill reports exactly these trades: their size, their notional, their fee. -/
structure Reports (d : FillDict) (ts : List Trade) : Prop where
  base : d.baseAmount = totalSize ts
  notional : d.baseAmount * d.price = totalNotional ts
  fee : d.fee = totalFee ts

theorem totalSize_pos {ts : List Trade} (h : ts ≠ []) : 0 < totalSize ts := by
  cases ts with
  | nil => exact absurd rfl h
  | cons t ts =>
      have hs : 0 ≤ totalSize ts := List.sum_nonneg (by
        intro q hq
        obtain ⟨u, _, rfl⟩ := List.mem_map.mp hq
        exact u.size_pos.le)
      show 0 < t.size + totalSize ts
      linarith [t.size_pos]

/-- A reconcile that comes back unfilled saw no trade. -/
theorem Venue.reconcile_unfilled {v : Venue} {h : OrderHandle} {symbol reason : String}
    {ts : List Trade} (hr : v.reconcile h symbol ts = .unfilled reason) : ts = [] := by
  by_contra hne
  have hpos := totalSize_pos hne
  cases v with
  | bitso => simp [reconcile, hne, not_le.mpr hpos] at hr
  | hyperliquid => simp [reconcile, hne] at hr

/-- A reconcile that comes back with a fill saw trades, and the fill is their sum. -/
theorem Venue.reconcile_fill {v : Venue} {h : OrderHandle} {symbol : String} {ts : List Trade}
    {f : Fill} (hr : v.reconcile h symbol ts = .fill f) : ts ≠ [] ∧ Reports (asdict f) ts := by
  have hne : ts ≠ [] := by
    intro he
    cases v <;> simp [reconcile, he] at hr
  have hpos := totalSize_pos hne
  refine ⟨hne, ?_⟩
  cases v with
  | bitso =>
      simp only [reconcile, if_neg hne, if_neg (not_le.mpr hpos), ReconcileResult.fill.injEq] at hr
      subst hr
      exact ⟨rfl, mul_div_cancel₀ _ hpos.ne', rfl⟩
  | hyperliquid =>
      simp only [reconcile, if_neg hne, if_pos hpos, ReconcileResult.fill.injEq] at hr
      subst hr
      exact ⟨rfl, mul_div_cancel₀ _ hpos.ne', rfl⟩

/-! ## What an exchange event leaves alone -/

namespace Exchange

variable {x : Exchange} {o oid : String}

theorem mem_of {r : Order} : r ∈ x.of o ↔ r ∈ x.orders ∧ r.originId = o := by
  simp [of]

theorem landed_iff : x.Landed o ↔ x.of o ≠ [] := by
  constructor
  · rintro ⟨r, hr⟩
    exact List.ne_nil_of_mem (mem_of.mpr hr)
  · intro h
    obtain ⟨r, hr⟩ := List.exists_mem_of_ne_nil _ h
    exact ⟨r, mem_of.mp hr⟩

theorem tradesOf_eq_nil : x.tradesOf o = [] ↔ ¬ x.Executed o := by
  simp only [tradesOf, List.flatMap_eq_nil_iff, mem_of, Executed]
  constructor
  · rintro h ⟨r, hr, ho, ht⟩
    exact ht (h r ⟨hr, ho⟩)
  · intro h r hr
    by_contra ht
    exact h ⟨r, hr.1, hr.2, ht⟩

theorem landed_of_executed (h : x.Executed o) : x.Landed o := by
  obtain ⟨r, hr, ho, _⟩ := h
  exact ⟨r, hr, ho⟩

theorem landed_of_active (h : x.Active o) : x.Landed o := by
  obtain ⟨r, hr, ho, _⟩ := h
  exact ⟨r, hr, ho⟩

/-- A POST that lands finds no resting order with its id, and adds one resting order. -/
theorem land_eq_some {x' : Exchange} (h : x.land o oid = some x') :
    ¬ x.Active o ∧ x' = ⟨x.orders ++ [⟨oid, o, true, []⟩]⟩ := by
  unfold land at h
  split at h
  · cases h
  · next hn =>
      cases h
      exact ⟨fun ha => hn (Or.inl ha), rfl⟩

theorem landed_land {o' : String} :
    (Exchange.mk (x.orders ++ [⟨oid, o, true, []⟩])).Landed o' ↔ x.Landed o' ∨ o = o' := by
  simp only [Landed, List.mem_append, List.mem_singleton]
  constructor
  · rintro ⟨r, hr | rfl, ho⟩
    · exact Or.inl ⟨r, hr, ho⟩
    · exact Or.inr ho
  · rintro (⟨r, hr, ho⟩ | rfl)
    · exact ⟨r, Or.inl hr, ho⟩
    · exact ⟨_, Or.inr rfl, rfl⟩

/-- What replacing a resting order can do to the orders of an `origin_id`: the same
orders in the same places, each kept or replaced. -/
theorem of_amend {f : Order → Order} (hf : ∀ r, (f r).originId = r.originId) :
    (x.amend oid f).of o =
      (x.of o).map fun r => if r.oid = oid ∧ r.active = true then f r else r := by
  unfold of amend
  rw [List.filter_map]
  congr 1
  apply List.filter_congr
  intro r _
  simp only [Function.comp_apply]
  split <;> simp [hf]

theorem landed_amend {f : Order → Order} (hf : ∀ r, (f r).originId = r.originId) :
    (x.amend oid f).Landed o ↔ x.Landed o := by
  rw [landed_iff, landed_iff, of_amend hf]
  simp

/-- An event at an order of another `origin_id`, or at no resting order, changes
nothing here. -/
theorem of_amend_of_ne {f : Order → Order} (hf : ∀ r, (f r).originId = r.originId)
    (h : ∀ r ∈ x.of o, r.oid = oid → r.active = false) : (x.amend oid f).of o = x.of o := by
  rw [of_amend hf]
  conv_rhs => rw [← List.map_id (x.of o)]
  apply List.map_congr_left
  intro r hr
  by_cases ho : r.oid = oid
  · simp [h r hr ho]
  · simp [ho]

end Exchange

end TreasuryForge.Orders

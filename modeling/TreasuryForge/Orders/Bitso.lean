/-
# `Orders.Bitso` — the two-phase executor on a transport

`exchanges/bitso/executor.py` and the taxonomy of `exchanges/bitso/errors.py`.  The
transport is the executor's only way out: it is given a request, and answers with a status
and a payload, or raises.  A `Response` has of a payload what the executor reads; an answer
whose payload cannot be read counts as one that raises.
-/
import TreasuryForge.Orders.Blotter
import TreasuryForge.Orders.Exchange

namespace TreasuryForge.Orders.Bitso

/-! ## The error taxonomy -/

/-- The categories of `_CODES`. -/
def codes : Dict String Category :=
  (((((((((Dict.empty.set "0201" .fatalAuth).set "0202" .fatalAuth).set "0206" .indeterminate).set
    "0207" .indeterminate).set "0213" .fatalAuth).set "0215" .fatalAuth).set
    "0377" .submitted).set "0378" .submitted).set "0379" .nonRetryable)

/-- The action category of a response: the status first, then the code. -/
def classify (httpStatus : ℕ) (code : Option String) : Category :=
  if httpStatus = 420 then .retryableBackoff
  else if 500 ≤ httpStatus ∨ httpStatus = 0 then .indeterminate
  else
    match code.bind codes.get? with
    | some category => category
    | none =>
        if httpStatus = 200 ∨ httpStatus = 201 then .ok
        else if httpStatus = 401 ∨ httpStatus = 403 then .fatalAuth
        else .nonRetryable

/-! ## Requests and responses -/

/-- The body of an order, key by key. -/
structure Params where
  book : String
  side : String
  type : String
  minor : Option ℚ := none
  major : Option ℚ := none
  price : Option ℚ := none
  originId : String := ""
  deriving DecidableEq, Repr

/-- What `user_trades` is asked by. -/
inductive Qualifier where
  | oid
  | originId
  deriving DecidableEq, Repr

inductive Request where
  | post (params : Params)
  | userTrades (qualifier : Qualifier) (key : String)
  deriving DecidableEq, Repr

/-- A row of the trade log; a fee or an id that is not there is zero. -/
structure TradeRow where
  major : ℚ
  price : ℚ
  feesAmount : ℚ := 0
  tid : ℤ := 0
  deriving DecidableEq, Repr

structure Response where
  status : ℕ
  success : Bool
  /-- `payload.oid` -/
  oid : Option String := none
  /-- `payload`, as a list -/
  trades : List TradeRow := []
  /-- `error.code` -/
  code : Option String := none
  /-- `error.message` -/
  message : Option String := none
  deriving DecidableEq, Repr

abbrev Answer := Except String Response

/-- `transport(method, path, body, headers)`, with its own state. -/
abbrev Transport (W : Type) := W → Request → Answer × W

/-- `_error` -/
def Response.error (r : Response) : BitsoError where
  category := classify r.status r.code
  code := r.code.getD ""
  message := r.message.getD "unknown error"
  httpStatus := r.status

/-! ## The executor -/

/-- The map from symbols to books; `lower` is `str.lower`. -/
structure BitsoExecutor where
  bookMap : Dict String String := Dict.empty
  lower : String → String := String.toLower

namespace BitsoExecutor

variable (ex : BitsoExecutor)

/-- `_book` -/
def book (symbol : String) : String := ex.bookMap.getD symbol (ex.lower symbol)

/-- `_to_params`, with the text of the `ValueError` it raises. -/
def toParams (intent : Intent) : Except String Params :=
  let book := ex.book intent.symbol
  let side := if intent.side = .buy then "buy" else "sell"
  match intent.orderType with
  | .market =>
      match intent.quoteAmount with
      | some q =>
          if intent.side ≠ .buy then .error "quote_amount (spend-exactly) is MARKET BUY only"
          else .ok { book, side, type := "market", minor := some q }
      | none => .ok { book, side, type := "market", major := some intent.baseAmount }
  | .limit =>
      match intent.limitPrice with
      | none => .error "LIMIT order requires limit_price"
      | some price =>
          if intent.quoteAmount.isSome then .error "quote_amount is not valid for a LIMIT order"
          else .ok {
            book, side, type := "limit", major := some intent.baseAmount, price := some price }

/-- What `place_order` makes of the answer to its POST. -/
def placed (book : String) (side : Side) (originId : String) : Answer → Except Raised OrderHandle
  | .error e => .error (.other e)
  | .ok r =>
      if r.success then .ok ⟨originId, r.oid, book, side⟩
      else if classify r.status r.code = .submitted then .ok ⟨originId, none, book, side⟩
      else .error (.bitso r.error)

/-- What `reconcile` makes of the answer to its GET. -/
def reconciled (handle : OrderHandle) (symbol : String) : Answer → Except Raised ReconcileResult
  | .error e => .error (.other e)
  | .ok r =>
      if r.success then
        let totalBase := (r.trades.map fun t => |t.major|).sum
        if r.trades = [] then .ok (.unfilled "no fills yet")
        else if totalBase ≤ 0 then .ok (.unfilled "zero base filled")
        else
          let notional := (r.trades.map fun t => |t.major| * t.price).sum
          .ok (.fill {
            symbol := symbol
            side := handle.side
            baseAmount := totalBase
            price := notional / totalBase
            fee := (r.trades.map (·.feesAmount)).sum
            ts := ((r.trades.map (·.tid)).max?).getD 0
            feeCurrency := if handle.side = .buy then "base" else "quote" })
      else
        let category := classify r.status r.code
        if category = .fatalAuth ∨ category = .nonRetryable then .error (.bitso r.error)
        else .ok (.unfilled s!"reconcile pending ({category.value})")

/-- The order id if there is one, and the `origin_id` otherwise. -/
def tradesRequest (handle : OrderHandle) : Request :=
  match handle.oid with
  | some oid => if oid = "" then .userTrades .originId handle.originId else .userTrades .oid oid
  | none => .userTrades .originId handle.originId

section Phases
variable {W : Type} (transport : Transport W)

def placeOrder (w : W) (intent : Intent) (originId : String) : Except Raised OrderHandle × W :=
  match ex.toParams intent with
  | .error e => (.error (.other e), w)
  | .ok params =>
      let (answer, w) := transport w (.post { params with originId := originId })
      (placed params.book intent.side originId answer, w)

def reconcile (w : W) (handle : OrderHandle) (symbol : String) :
    Except Raised ReconcileResult × W :=
  let (answer, w) := transport w (tradesRequest handle)
  (reconciled handle symbol answer, w)

/-- The two phases, as the manager is given them. -/
def twoPhase : TwoPhaseExecutor W where
  placeOrder := ex.placeOrder transport
  reconcile := reconcile transport

end Phases

/-- The row that the log has of a trade. -/
def rowOf (t : Trade) : TradeRow := ⟨t.size, t.price, t.fee, t.tid⟩

/-- On the trades of an exchange, the reconcile is the one of `Orders.Exchange`. -/
theorem reconciled_trades (handle : OrderHandle) (symbol : String) (ts : List Trade) :
    reconciled handle symbol (.ok { status := 200, success := true, trades := ts.map rowOf }) =
      .ok (Venue.bitso.reconcile handle symbol ts) := by
  have hsize : ((ts.map rowOf).map fun t => |t.major|).sum = totalSize ts := by
    rw [List.map_map, totalSize]
    exact congrArg List.sum (List.map_congr_left fun t _ => abs_of_pos t.size_pos)
  have hnotional : ((ts.map rowOf).map fun t => |t.major| * t.price).sum = totalNotional ts := by
    rw [List.map_map, totalNotional]
    refine congrArg List.sum (List.map_congr_left fun t _ => ?_)
    exact congrArg (· * t.price) (abs_of_pos t.size_pos)
  have hfee : ((ts.map rowOf).map (·.feesAmount)).sum = totalFee ts := by
    rw [List.map_map]
    rfl
  have htid : (((ts.map rowOf).map (·.tid)).max?).getD 0 = lastTid ts := by
    cases ts with
    | nil => rfl
    | cons t ts =>
        rw [List.map_map, List.map_cons, List.max?_cons', List.foldl_map]
        rfl
  unfold reconciled
  dsimp only
  rw [if_pos rfl, hsize, hnotional, hfee, htid, Venue.reconcile]
  by_cases hnil : ts = []
  · rw [if_pos hnil, if_pos (List.map_eq_nil_iff.mpr hnil)]
  · have hpos := totalSize_pos hnil
    rw [if_neg hnil, if_neg fun h => hnil (List.map_eq_nil_iff.mp h), if_neg (not_le.mpr hpos),
      if_neg (not_le.mpr hpos)]

end BitsoExecutor

end TreasuryForge.Orders.Bitso

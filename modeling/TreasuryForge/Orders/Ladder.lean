/-
# `Orders.Ladder` — the validation ladder, on answers of any shape

`run_ladder` of `exchanges/bitso/validation.py`, as a program whose calls are requests; what
comes back is a status and any JSON.  `raise` is what leaves the function: an exception that is no
`BitsoError`, or one outside the `try`.

`rungs` is the order of the calls.  A stand is what the answers so far have shown, said of the
answers and not of the code; `runLadder_keeps` is that the code makes no call its stand does not
allow, and reports as it stands at the end.
-/
import TreasuryForge.Base.Prog
import TreasuryForge.Orders.Payload

namespace TreasuryForge.Orders.Bitso

open JsonText JsonText.Val Raising Resume Protocol

/-! ## Requests and results -/

/-- The body of an order. -/
structure OrderBody where
  book : String
  side : String
  type : String
  major : Option PyFloat := none
  minor : Option PyFloat := none
  price : Option PyFloat := none
  originId : String

inductive Call where
  | availableBooks
  | balance
  | probeWithdrawal
  | fees
  | openOrders (book : String)
  | cancelAll
  | placeOrder (body : OrderBody)
  | userTrades (request : PayloadRequest)

/-- A status, and a payload of any shape. -/
abbrev Reply : Call → Type := fun _ => ℕ × Payload

inductive LadderError where
  | bitso (e : PayloadError)
  | other (text : String)

abbrev Run (A : Type) := Prog Call Reply LadderError A

def Run.request (call : Call) : Run (ℕ × Payload) := Prog.ask call

/-- What leaves an expression leaves the program. -/
def Run.lift {A : Type} : Except String A → Run A
  | .ok a => .ret a
  | .error e => .raise (.other e)

/-- A reading that ends in a result, a `BitsoError`, or another exception. -/
def Run.raised {A : Type} : Except String (Except PayloadError A) → Run A
  | .ok (.ok a) => .ret a
  | .ok (.error e) => .raise (.bitso e)
  | .error e => .raise (.other e)

inductive RungStatus where
  | pass
  | fail
  | warn
  | skip
  deriving DecidableEq, Repr

/-- A piece of a detail: a text of the source, or a value put into it. -/
inductive Piece where
  | text (s : String)
  | value (v : Payload)
  | status (n : ℕ)
  | flag (b : Bool)
  | number (x : PyFloat)
  | percent (x : PyFloat)
  | category (c : Category)

structure RungResult where
  name : String
  status : RungStatus
  detail : List Piece
  data : List (String × Payload) := []

structure LadderArgs where
  symbol : String := "BTC"
  book : String := "btc_mxn"
  arm : Bool := false
  maxMxn : PyFloat := .fin 20
  origin : String := "tf-val"

/-! ## What is read of the answers -/

section Read

variable (lit : Literals)

/-- `v.get(name, default)` -/
def getOr (v : Payload) (name : String) (default : Payload) : Except String Payload :=
  (·.getD default) <$> v.attrGet name

/-- `v == text` -/
def isText (v : Payload) (text : String) : Bool := v.same (.str (Str.of text))

/-- `payload.get("success")`, as a condition. -/
def succeeded (payload : Payload) : Except String Bool :=
  truthy <$> getOr payload "success" .none

/-- `books`, entry by entry; a later entry of a book replaces an earlier one. -/
def booksOf (payload : Payload) : Except String (List (Payload × Payload)) := do
  if ← succeeded payload then
    (← (← getOr payload "payload" (.list [])).iter).mapM fun b => do
      let key ← b.subscript "book"
      if key.hashable then return (key, b)
      else throw s!"TypeError: unhashable type: '{key.typeName}'"
  else return []

/-- `books[book]`, if it is there. -/
def findBook (book : String) (books : List (Payload × Payload)) : Option Payload :=
  (books.reverse.find? fun entry => isText entry.1 book).map Prod.snd

/-- The entry of the book, unless rung 1 fails. -/
def listedBook (book : String) (answer : ℕ × Payload) : Except String (Option Payload) := do
  let books ← booksOf answer.2
  return if answer.1 = 200 then findBook book books else none

/-- `status == 200 and payload.get("success")` -/
def answered (answer : ℕ × Payload) : Except String Bool :=
  if answer.1 = 200 then succeeded answer.2 else return false

/-- The loop of `_mxn_available`. -/
def firstMxn : List Payload → Except String (Option PyFloat)
  | [] => return none
  | b :: bs => do
      if isText (← getOr b "currency" .none) "mxn" then
        return some (← (← getOr b "available" (.float (.fin 0))).asFloat lit)
      else firstMxn bs

/-- `_mxn_available` -/
def mxnAvailable (payload : Payload) : Except String (Option PyFloat) := do
  let inner ← getOr payload "payload" (.dict [])
  firstMxn lit (← (← getOr inner "balances" (.list [])).iter)

/-- `AUTH_FAILED` -/
def authFailed : List String := ["0201", "0206", "0207", "0213", "0215"]

/-- Rung 3: what it reports. -/
def probed (answer : ℕ × Payload) : Except String RungResult := do
  let (status, payload) := answer
  let code ← getOr (← getOr payload "error" (.dict [])) "code" (.str [])
  if (← succeeded payload) || status = 200 || status = 201 then
    return ⟨"3-no_withdraw", .fail,
      [.text "DANGER: withdrawal ACCEPTED — key has withdraw scope. ABORT."], []⟩
  else if isText code "0202" then
    return ⟨"3-no_withdraw", .pass, [.text "withdrawal rejected with 0202 (not authorized)"], []⟩
  else if status = 404 then
    return ⟨"3-no_withdraw", .warn,
      [.text "probe path 404 (inconclusive) — rely on scope-at-creation"], []⟩
  else if code.hashable = false then throw s!"TypeError: unhashable type: '{code.typeName}'"
  else if authFailed.any (isText code) then
    return ⟨"3-no_withdraw", .warn, [.text "could not authenticate the probe (code=", .value code,
      .text "); rerun after fixing auth"], []⟩
  else
    return ⟨"3-no_withdraw", .fail, [.text "DANGER: probe reached business logic (status=",
      .status status, .text " code=", .value code,
      .text ") — key likely HAS withdraw scope. ABORT."], []⟩

/-- The taker fee of the book: the last one that is listed. -/
def takerFee (book : String) : List Payload → Option PyFloat → Except String (Option PyFloat)
  | [], taker => return taker
  | f :: fs, taker => do
      if isText (← getOr f "book" .none) book then
        takerFee book fs (some (← (← getOr f "taker_fee_decimal" .none).asFloat lit))
      else takerFee book fs taker

def ofNumber : Option PyFloat → Payload
  | some x => .float x
  | Option.none => .none

/-- Rung 4: what it reports. -/
def feesRead (book : String) (answer : ℕ × Payload) : Except String RungResult := do
  if ← answered answer then
    let inner ← getOr answer.2 "payload" (.dict [])
    let taker ← takerFee lit book (← (← getOr inner "fees" (.list [])).iter) none
    return ⟨"4-fees", .pass, [.text book, .text " taker=", .value (ofNumber taker)],
      [("taker", ofNumber taker)]⟩
  else return ⟨"4-fees", .warn, [.text "could not read fees: status=", .status answer.1], []⟩

/-- `v or "1"` -/
def orOne (v : Payload) : Payload := if v.truthy then v else .str (Str.of "1")

/-- The limit order of rung 5: a price that should rest, and an amount worth the cap. -/
def restOrder (ex : BitsoExecutor) (a : LadderArgs) (bk : Payload) : Except String OrderBody := do
  let price := (← (orOne (← getOr bk "minimum_price" (.str (Str.of "1")))).asFloat lit).max (.fin 1)
  let floor ← (← getOr bk "minimum_amount" (.str (Str.of "0.0001"))).asFloat lit
  return {
    book := ex.book a.symbol, side := "buy", type := "limit"
    major := some (floor.max (a.maxMxn.div price)), price := some price
    originId := s!"{a.origin}-rest" }

/-- `any(o.get("oid") == oid for o in …)` -/
def anyOid (oid : Payload) : List Payload → Except String Bool
  | [] => return false
  | o :: os => do
      if (← getOr o "oid" .none).same oid then return true
      else anyOid oid os

/-- The orders of the answer have this id. -/
def showsOid (oid : Payload) (payload : Payload) : Except String Bool := do
  anyOid oid (← (← getOr payload "payload" (.list [])).iter)

/-- The market order of rung 6. -/
def tinyBuy (ex : BitsoExecutor) (a : LadderArgs) : OrderBody where
  book := ex.book a.symbol
  side := "buy"
  type := "market"
  minor := some (a.maxMxn.min (.fin 20))
  originId := s!"{a.origin}-buy"

def effCost (f : PayloadFill) : PyFloat :=
  let notional := f.baseAmount.mul f.price
  let feeQuote := if f.feeCurrency = "base" then f.fee.mul f.price else f.fee
  if notional ≠ .fin 0 then feeQuote.div notional else .fin 1

/-- `eff_cost <= 0.015` -/
def cheap (f : PayloadFill) : Bool :=
  (effCost f).lt (.fin (15 / 1000)) || effCost f = .fin (15 / 1000)

end Read

/-! ## The ladder -/

section Ladder

variable (lit : Literals) (ex : BitsoExecutor) (a : LadderArgs)

/-- `place_order`, for a body that was made of an intent with what it needs. -/
def placeOrder (body : OrderBody) : Run PayloadHandle := do
  let (status, payload) ← Run.request (.placeOrder body)
  Run.raised (readPlaced body.book .buy body.originId status payload)

def reconcile (handle : PayloadHandle) (symbol : String) : Run PayloadReconciled :=
  if handle.request.signable then do
    let (status, payload) ← Run.request (.userTrades handle.request)
    Run.raised (readReconciled lit handle.side symbol status payload)
  else .raise (.other "UnicodeEncodeError: surrogates not allowed")

/-- What `except BitsoError` makes of a part of the `try`. -/
def caught {A : Type} (p : Run A) : Run (Except PayloadError A) :=
  (Except.ok <$> p).tryCatch fun
    | .bitso e => .ret (.error e)
    | .other e => .raise (.other e)

/-- Rung 5: whether the resting order was open, and whether it still was after the kill. -/
def killPath (bk : Payload) : Run (Bool × Bool) := do
  let body ← Run.lift (restOrder lit ex a bk)
  let handle ← placeOrder body
  let (_, oo) ← Run.request (.openOrders a.book)
  let isOpen ← Run.lift (showsOid handle.oid oo)
  let _ ← Run.request .cancelAll
  let (_, oo2) ← Run.request (.openOrders a.book)
  let stillOpen ← Run.lift (showsOid handle.oid oo2)
  return (isOpen, stillOpen)

/-- The order of rung 6, reconciled. -/
def tinyOrder : Run PayloadReconciled := do
  let handle ← placeOrder (tinyBuy ex a)
  reconcile lit handle a.symbol

/-- `f"order rung failed: {e}"` -/
def orderFailed (e : PayloadError) : RungResult where
  name := "5/6-order"
  status := .fail
  detail := [.text "order rung failed: [", .status e.httpStatus, .text "/", .value e.code,
    .text "] ", .category e.category, .text ": ", .value e.message]

/-- What rung 6 reports. -/
def tinyResult : PayloadReconciled → RungResult
  | .unfilled reason =>
      ⟨"6-tiny_order", .fail, [.text "order did not fill: ", .text reason], []⟩
  | .fill f =>
      { name := "6-tiny_order", status := if cheap f then .pass else .fail
        detail := [.text "filled ", .number f.baseAmount, .text " ", .text a.symbol, .text " @ ",
          .number f.price, .text "; effective cost ", .percent (effCost f),
          .text " (gate <=1.50%)"]
        data := [("fill_base", .float f.baseAmount), ("price", .float f.price),
          ("fee", .float f.fee), ("fee_currency", .str (Str.of f.feeCurrency)),
          ("eff_cost", .float (effCost f))] }

/-- Rungs 5 and 6, armed. -/
def orderRungs (bk : Payload) (out : List RungResult) : Run (List RungResult) := do
  match ← caught (killPath lit ex a bk) with
  | .error e => return out ++ [orderFailed e]
  | .ok (isOpen, stillOpen) =>
      if isOpen && !stillOpen then
        let out := out ++ [⟨"5-kill_path", .pass,
          [.text "resting order opened then cancel_all cleared it"], []⟩]
        match ← caught (tinyOrder lit ex a) with
        | .error e => return out ++ [orderFailed e]
        | .ok r => return out ++ [tinyResult a r]
      else
        return out ++ [⟨"5-kill_path", .fail, [.text "kill-path broken: opened=", .flag isOpen,
          .text " still_open=", .flag stillOpen], []⟩]

/-- Rungs 3 and 4, and the orders if the ladder is armed. -/
def upperRungs (bk : Payload) (out : List RungResult) : Run (List RungResult) := do
  let probe ← Run.lift (probed (← Run.request .probeWithdrawal))
  let out := out ++ [probe]
  if probe.status = .fail then return out
  let fees ← Run.lift (feesRead lit a.book (← Run.request .fees))
  let out := out ++ [fees]
  if a.arm then orderRungs lit ex a bk out
  else
    return out ++ [⟨"5-kill_path", .skip, [.text "not armed (read-only run)"], []⟩,
      ⟨"6-tiny_order", .skip, [.text "not armed (read-only run)"], []⟩]

/-- Rung 2, and what follows it. -/
def balanceRung (bk : Payload) (out : List RungResult) : Run (List RungResult) := do
  let answer ← Run.request .balance
  if ← Run.lift (answered answer) then
    let mxn ← Run.lift (mxnAvailable lit answer.2)
    upperRungs lit ex a bk (out ++ [⟨"2-balance", .pass,
      [.text "auth OK; mxn available=", .value (ofNumber mxn)], [("mxn", ofNumber mxn)]⟩])
  else
    return out ++ [⟨"2-balance", .fail, [.text "signed read failed: status=", .status answer.1,
      .text " ", .value answer.2], []⟩]

/-- `run_ladder` -/
def runLadder : Run (List RungResult) := do
  let answer ← Run.request .availableBooks
  match ← Run.lift (listedBook a.book answer) with
  | Option.none =>
      return [⟨"1-available_books", .fail,
        [.text "status=", .status answer.1, .text s!", {a.book} not found"], []⟩]
  | some bk =>
      let minValue ← Run.lift (getOr bk "minimum_value" .none)
      let minAmount ← Run.lift (getOr bk "minimum_amount" .none)
      balanceRung lit ex a bk [⟨"1-available_books", .pass, [.text a.book, .text " min_value=",
        .value minValue, .text " min_amount=", .value minAmount], [("book", bk)]⟩]

end Ladder

/-! ## What the answers show -/

/-- The market is there: the answer lists the book. -/
def Lists (book : String) (r : ℕ × Payload) : Prop :=
  r.1 = 200 ∧ ∃ items rows fields key, r.2 = .dict items ∧
    (field items "success" .none).truthy = true ∧
    field items "payload" (.list []) = .list rows ∧ .dict fields ∈ rows ∧
    get? fields "book" = some key ∧ isText key book = true

/-- The key signs: the answer is a success. -/
def Succeeds (r : ℕ × Payload) : Prop :=
  r.1 = 200 ∧ ∃ items, r.2 = .dict items ∧ (field items "success" .none).truthy = true

/-- The withdrawal was not accepted, and was turned away before it was looked at. -/
def Refuses (r : ℕ × Payload) : Prop :=
  ∃ items err, r.2 = .dict items ∧ field items "error" (.dict []) = .dict err ∧
    (field items "success" .none).truthy = false ∧ r.1 ≠ 200 ∧ r.1 ≠ 201 ∧
    (isText (field err "code" (.str [])) "0202" = true ∨ r.1 = 404 ∨
      ∃ code ∈ authFailed, isText (field err "code" (.str [])) code = true)

/-- The order was taken under this id. -/
def Placed (r : ℕ × Payload) (oid : Payload) : Prop :=
  ∃ book originId handle, readPlaced book .buy originId r.1 r.2 = .ok (.ok handle) ∧
    handle.oid = oid

/-- An order with this id is among the open ones. -/
def Shows (oid : Payload) (r : ℕ × Payload) : Prop :=
  ∃ items rows fields, r.2 = .dict items ∧ field items "payload" (.list []) = .list rows ∧
    .dict fields ∈ rows ∧ (field fields "oid" .none).same oid = true

/-- Where the ladder stands. -/
inductive Stage where
  | start
  | listed
  | funded
  | guarded
  | priced
  | resting (oid : Payload)
  | looked (oid : Payload) (open₁ : ℕ × Payload)
  | killed (oid : Payload) (open₁ : ℕ × Payload)
  | cleared
  | bought

abbrev Exchange := Σ call : Call, Reply call

variable (ex : BitsoExecutor) (a : LadderArgs)

/-- The only call of each stage. -/
inductive Stage.Asks : Stage → Call → Prop
  | books : Asks .start .availableBooks
  | balance : Asks .listed .balance
  | probe : Asks .funded .probeWithdrawal
  | fees : Asks .guarded .fees
  | rest {body} : a.arm = true → body.type = "limit" → Asks .priced (.placeOrder body)
  | look {oid} : Asks (.resting oid) (.openOrders a.book)
  | kill {oid r} : Asks (.looked oid r) .cancelAll
  | lookAgain {oid r} : Asks (.killed oid r) (.openOrders a.book)
  | buy : Asks .cleared (.placeOrder (tinyBuy ex a))
  | reconcile {request} : Asks .bought (.userTrades request)

/-- The stage that these calls, with these answers, have led to. -/
inductive Stands : List Exchange → Stage → Prop
  | start : Stands [] .start
  | listed {r es} : Stands es .start → Lists a.book r →
      Stands (es ++ [⟨.availableBooks, r⟩]) .listed
  | funded {r es} : Stands es .listed → Succeeds r → Stands (es ++ [⟨.balance, r⟩]) .funded
  | guarded {r es} : Stands es .funded → Refuses r →
      Stands (es ++ [⟨.probeWithdrawal, r⟩]) .guarded
  | priced {r es} : Stands es .guarded → Stands (es ++ [⟨.fees, r⟩]) .priced
  | resting {r es oid body} : Stands es .priced → a.arm = true → body.type = "limit" →
      Placed r oid → Stands (es ++ [⟨.placeOrder body, r⟩]) (.resting oid)
  | looked {r es oid} : Stands es (.resting oid) →
      Stands (es ++ [⟨.openOrders a.book, r⟩]) (.looked oid r)
  | killed {r r' es oid} : Stands es (.looked oid r) →
      Stands (es ++ [⟨.cancelAll, r'⟩]) (.killed oid r)
  | cleared {r r' es oid} : Stands es (.killed oid r) → Shows oid r → ¬ Shows oid r' →
      Stands (es ++ [⟨.openOrders a.book, r'⟩]) .cleared
  | bought {r es} : Stands es .cleared → Stands (es ++ [⟨.placeOrder (tinyBuy ex a), r⟩]) .bought

/-- Every call is the one of the stage that those before it have led to. -/
def rungs : Protocol Call Reply (List Exchange) :=
  ofHistory fun es call => ∃ stage, Stands ex a es stage ∧ stage.Asks ex a call

end TreasuryForge.Orders.Bitso

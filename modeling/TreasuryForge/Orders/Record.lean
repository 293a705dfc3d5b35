/-
# `Orders.Record` — order states, order records, and their form on disk

The data of `treasuryforge/orders.py`: the state machine's states with their
string values, what an executor hands back (`OrderHandle`, a fill, an error with
its category), and the record the manager keeps for each `origin_id`.  A record
is written to disk as a `RecordDict`, with the enumerations turned into their
values; `ofDict_toDict` says that reading it back gives the record.
-/
import TreasuryForge.Core.Types
import TreasuryForge.Base.Dict

namespace TreasuryForge.Orders

open TreasuryForge

/-! ## What an executor hands back -/

/-- The action categories of `exchanges/bitso/errors.py`. -/
inductive Category where
  | retryableBackoff
  | indeterminate
  | fatalAuth
  | nonRetryable
  | submitted
  | ok
  deriving DecidableEq, Repr

def Category.value : Category → String
  | .retryableBackoff => "retry_backoff"
  | .indeterminate => "indeterminate"
  | .fatalAuth => "fatal_auth"
  | .nonRetryable => "non_retryable"
  | .submitted => "submitted"
  | .ok => "ok"

/-- `_DEFINITELY_NOT_LANDED`. -/
def Category.definitelyNotLanded : Category → Bool
  | .fatalAuth | .nonRetryable => true
  | _ => false

structure BitsoError where
  category : Category
  code : String
  message : String
  httpStatus : ℕ
  deriving DecidableEq, Repr

def BitsoError.text (e : BitsoError) : String :=
  s!"[{e.httpStatus}/{e.code}] {e.category.value}: {e.message}"

/-- What a call can raise: a `BitsoError`, or anything else. -/
inductive Raised where
  | bitso (e : BitsoError)
  | other (message : String)
  deriving DecidableEq, Repr

/-- The error says that the order did not land. -/
def Raised.definitive : Raised → Bool
  | .bitso e => e.category.definitelyNotLanded
  | .other _ => false

structure OrderHandle where
  originId : String
  oid : Option String
  book : String
  side : Side
  deriving DecidableEq, Repr

/-- `Fill | Unfilled`. -/
inductive ReconcileResult where
  | fill (f : Fill)
  | unfilled (reason : String)
  deriving DecidableEq, Repr

/-! ## States -/

inductive OrderState where
  | placing
  | submitted
  | unknown
  | open
  | filled
  | rejected
  deriving DecidableEq, Repr

namespace OrderState

def value : OrderState → String
  | .placing => "placing"
  | .submitted => "submitted"
  | .unknown => "unknown"
  | .open => "open"
  | .filled => "filled"
  | .rejected => "rejected"

/-- `OrderState(s)`. -/
def ofValue (s : String) : Option OrderState :=
  [placing, submitted, unknown, .open, filled, rejected].find? fun st => st.value = s

/-- `_TERMINAL`. -/
def terminal : OrderState → Bool
  | .filled | .rejected => true
  | _ => false

@[simp] theorem ofValue_value (s : OrderState) : ofValue s.value = some s := by
  cases s <;> decide

end OrderState

/-! ## Fills as dictionaries -/

/-- `asdict(Fill)`, with the side as its value. -/
structure FillDict where
  symbol : String
  side : String
  baseAmount : ℚ
  price : ℚ
  fee : ℚ
  ts : ℤ
  feeCurrency : String
  deriving DecidableEq, Repr

def asdict (f : Fill) : FillDict :=
  ⟨f.symbol, f.side.value, f.baseAmount, f.price, f.fee, f.ts, f.feeCurrency⟩

/-- `Fill(**d)`, with the side read back from its value. -/
def FillDict.toFill (d : FillDict) : Option Fill :=
  (Side.ofValue d.side).map fun side =>
    ⟨d.symbol, side, d.baseAmount, d.price, d.fee, d.ts, d.feeCurrency⟩

@[simp] theorem toFill_asdict (f : Fill) : (asdict f).toFill = some f := by
  simp [asdict, FillDict.toFill]

/-! ## Records -/

structure OrderRecord where
  originId : String
  state : OrderState
  symbol : String := ""
  book : String := ""
  side : String := "buy"
  oid : Option String := none
  attempts : ℕ := 0
  reason : String := ""
  fill : Option FillDict := none
  deriving DecidableEq, Repr

/-- A record as the journal holds it. -/
structure RecordDict where
  originId : String
  state : String
  symbol : String
  book : String
  side : String
  oid : Option String
  attempts : ℕ
  reason : String
  fill : Option FillDict
  deriving DecidableEq, Repr

namespace OrderRecord

def toDict (r : OrderRecord) : RecordDict :=
  ⟨r.originId, r.state.value, r.symbol, r.book, r.side, r.oid, r.attempts, r.reason, r.fill⟩

/-- `from_dict`; fails on a string that is no state's value. -/
def ofDict (d : RecordDict) : Option OrderRecord :=
  (OrderState.ofValue d.state).map fun state =>
    ⟨d.originId, state, d.symbol, d.book, d.side, d.oid, d.attempts, d.reason, d.fill⟩

@[simp] theorem ofDict_toDict (r : OrderRecord) : ofDict r.toDict = some r := by
  simp [ofDict, toDict]

def handle (r : OrderRecord) : OrderHandle :=
  ⟨r.originId, r.oid, r.book, if r.side = "buy" then .buy else .sell⟩

/-- What every record the manager builds satisfies: without a confirmed
submission there is no exchange id, and a fill is there exactly when the order
is filled. -/
structure Ok (r : OrderRecord) : Prop where
  oid : r.state = .placing ∨ r.state = .unknown → r.oid = none
  fill : r.fill.isSome = true ↔ r.state = .filled

end OrderRecord

/-- What `submit` and `recover` resolved an order to. -/
structure Outcome where
  originId : String
  state : OrderState
  fill : Option Fill := none
  reason : String := ""
  deriving DecidableEq, Repr

end TreasuryForge.Orders

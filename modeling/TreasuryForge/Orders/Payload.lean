/-
# `Orders.Payload` — the Bitso executor on payloads of any shape

`place_order` and `reconcile` of `exchanges/bitso/executor.py`, on whatever JSON comes back, and
the decoding of what comes back in `exchanges/bitso/transport.py`.  What is `.error` here is an
exception that is no `BitsoError` and leaves the executor; a `BitsoError` is a result.
`contained_iff` says which responses are read without the former, and `readPlaced_typed` and
`readReconciled_typed` that on well-typed ones this is the executor of `Orders.Bitso`.
-/
import TreasuryForge.Base.Dynamic
import TreasuryForge.Base.JsonLimits
import TreasuryForge.Orders.Bitso

namespace TreasuryForge.Orders.Bitso

open JsonText JsonText.Val Raising

abbrev Payload := Val PyFloat

/-! ## The executor -/

/-- A `BitsoError`, with the code and the message as they came. -/
structure PayloadError where
  category : Category
  code : Payload
  message : Payload
  httpStatus : ℕ

/-- An `OrderHandle`, with the order id as it came. -/
structure PayloadHandle where
  originId : String
  oid : Payload
  book : String
  side : Side

structure PayloadFill where
  symbol : String
  side : Side
  baseAmount : PyFloat
  price : PyFloat
  fee : PyFloat
  ts : ℤ
  feeCurrency : String

inductive PayloadReconciled where
  | fill (f : PayloadFill)
  | unfilled (reason : String)

/-- `_CODES`, looked up by a string. -/
def codeCategory (code : Str) : Option Category :=
  codes.items.findSome? fun p => if Str.of p.1 = code then some p.2 else none

/-- `classify`: a code that cannot be looked up raises. -/
def classifyPayload (httpStatus : ℕ) (code : Payload) : Except String Category :=
  let byStatus : Category :=
    if httpStatus = 200 ∨ httpStatus = 201 then .ok
    else if httpStatus = 401 ∨ httpStatus = 403 then .fatalAuth
    else .nonRetryable
  if httpStatus = 420 then .ok .retryableBackoff
  else if 500 ≤ httpStatus ∨ httpStatus = 0 then .ok .indeterminate
  else if code.truthy && !code.hashable then
    .error s!"TypeError: unhashable type: '{code.typeName}'"
  else
    match code with
    | .str s => .ok ((codeCategory s).getD byStatus)
    | _ => .ok byStatus

/-- `_error` -/
def errorOf (status : ℕ) (payload : Payload) : Except String PayloadError := do
  let err ←
    match payload with
    | .dict _ => (·.getD (.dict [])) <$> payload.attrGet "error"
    | _ => .ok (.dict [])
  let code := (← err.attrGet "code").getD (.str [])
  let category ← classifyPayload status code
  let message := (← err.attrGet "message").getD (.str (Str.of "unknown error"))
  return ⟨category, code, message, status⟩

/-- The category that `place_order` and `reconcile` look at. -/
def failureCategory (status : ℕ) (payload : Payload) : Except String Category := do
  let err := (← payload.attrGet "error").getD (.dict [])
  let code := (← err.attrGet "code").getD .none
  classifyPayload status code

/-- What `place_order` makes of the answer to its POST. -/
def readPlaced (book : String) (side : Side) (originId : String) (status : ℕ) (payload : Payload) :
    Except String (Except PayloadError PayloadHandle) := do
  let success := (← payload.attrGet "success").getD .none
  if success.truthy then
    let inner := (← payload.attrGet "payload").getD (.dict [])
    let oid := (← inner.attrGet "oid").getD .none
    return .ok ⟨originId, oid, book, side⟩
  else
    let category ← failureCategory status payload
    if category = .submitted then return .ok ⟨originId, .none, book, side⟩
    else return .error (← errorOf status payload)

/-- `abs(float(t["major"]))` -/
def major (lit : Literals) (t : Payload) : Except String PyFloat := do
  return ((← (← t.subscript "major").asFloat lit)).abs

/-- `abs(float(t["major"])) * float(t["price"])` -/
def value (lit : Literals) (t : Payload) : Except String PyFloat := do
  let base ← major lit t
  return base.mul (← (← t.subscript "price").asFloat lit)

/-- `float(t.get("fees_amount", 0.0))` -/
def feesAmount (lit : Literals) (t : Payload) : Except String PyFloat := do
  ((← t.attrGet "fees_amount").getD (.float (.fin 0))).asFloat lit

/-- `int(t.get("tid", 0))` -/
def tid (lit : Literals) (t : Payload) : Except String ℤ := do
  ((← t.attrGet "tid").getD (.int 0)).asInt lit

/-- The fill that `reconcile` returns, at the average price. -/
def fillOf (side : Side) (symbol : String) (totalBase notional totalFee : PyFloat)
    (tids : List ℤ) : PayloadFill where
  symbol := symbol
  side := side
  baseAmount := totalBase
  price := notional.div totalBase
  fee := totalFee
  ts := tids.max?.getD 0
  feeCurrency := if side = .buy then "base" else "quote"

/-- What `reconcile` makes of the answer to its GET. -/
def readReconciled (lit : Literals) (side : Side) (symbol : String) (status : ℕ)
    (payload : Payload) : Except String (Except PayloadError PayloadReconciled) := do
  let success := (← payload.attrGet "success").getD .none
  if success.truthy then
    let log := (← payload.attrGet "payload").getD (.list [])
    if log.truthy then
      let majors ← (← log.iter).mapM (major lit)
      let totalBase := PyFloat.sum majors
      if totalBase.nonpos then return .ok (.unfilled "zero base filled")
      else
        let notional := PyFloat.sum (← (← log.iter).mapM (value lit))
        let totalFee := PyFloat.sum (← (← log.iter).mapM (feesAmount lit))
        let tids ← (← log.iter).mapM (tid lit)
        return .ok (.fill (fillOf side symbol totalBase notional totalFee tids))
    else return .ok (.unfilled "no fills yet")
  else
    let category ← failureCategory status payload
    if category = .fatalAuth ∨ category = .nonRetryable then
      return .error (← errorOf status payload)
    else return .ok (.unfilled s!"reconcile pending ({category.value})")

inductive PayloadRequest where
  | post (params : Params)
  | userTrades (qualifier : Qualifier) (key : Payload)

/-- `transport(method, path, body, headers)`: a status and a payload of any shape, or an
exception. -/
abbrev PayloadTransport := PayloadRequest → Except String (ℕ × Payload)

def placeOrderPayload (ex : BitsoExecutor) (transport : PayloadTransport) (intent : Intent)
    (originId : String) : Except String (Except PayloadError PayloadHandle) :=
  match ex.toParams intent with
  | .error e => .error s!"ValueError: {e}"
  | .ok params =>
      transport (.post { params with originId := originId }) >>= fun (status, payload) =>
        readPlaced params.book intent.side originId status payload

/-- The order id if there is one, and the `origin_id` otherwise. -/
def PayloadHandle.request (handle : PayloadHandle) : PayloadRequest :=
  if handle.oid.truthy then .userTrades .oid handle.oid
  else .userTrades .originId (.str (Str.of handle.originId))

/-- A text that has no UTF-8 form cannot be signed. -/
def PayloadRequest.signable : PayloadRequest → Bool
  | .userTrades _ (.str s) => s.all fun c => c.val < 0xd800 || 0xdfff < c.val
  | _ => true

def reconcilePayload (lit : Literals) (transport : PayloadTransport) (handle : PayloadHandle)
    (symbol : String) : Except String (Except PayloadError PayloadReconciled) :=
  if handle.request.signable then
    transport handle.request >>= fun (status, payload) =>
      readReconciled lit handle.side symbol status payload
  else .error "UnicodeEncodeError: surrogates not allowed"

/-! ## The transport -/

/-- What opening a request comes to: a status and a text; no response, by an exception that the
transport catches; or one that it does not, a body that is no UTF-8 among them. -/
inductive HttpResponse where
  | text (status : ℕ) (raw : List Char)
  | unreachable
  | failed (exception : String)

/-- The transport of `make_http_transport`, where requests come to these responses. -/
def httpTransport (fl : Floats PyFloat) (limits : Limits PyFloat)
    (http : PayloadRequest → HttpResponse) : PayloadTransport := fun request =>
  match http request with
  | .unreachable => .ok (0, .dict [])
  | .failed exception => .error exception
  | .text status raw =>
      if raw.isEmpty then .ok (status, .dict [])
      else
        match loadsWithin fl limits raw with
        | .value payload => .ok (status, payload)
        | .malformed => .ok (status, .dict [])
        | .raised limit => .error limit.text

/-! ## What can be read -/

def HttpResponse.status : HttpResponse → ℕ
  | .text status _ => status
  | _ => 0

/-- The value of the text, and an empty object where it has none. -/
def HttpResponse.payload (fl : Floats PyFloat) : HttpResponse → Payload
  | .text _ raw => (loads fl raw).getD (.dict [])
  | _ => .dict []

/-- No exception comes out of the request, and no limit is reached reading a text. -/
def HttpResponse.Decodable (limits : Limits PyFloat) : HttpResponse → Prop
  | .text _ raw => raw = [] ∨ limits.reading raw = Option.none
  | .unreachable => True
  | .failed _ => False

/-- A field of an object, or what stands for one that is not there. -/
def field (items : List (Key PyFloat × Payload)) (name : String) (default : Payload) : Payload :=
  (get? items name).getD default

/-- The status decides alone, or the code can be looked up. -/
def Classifiable (status : ℕ) (code : Payload) : Prop :=
  status = 420 ∨ 500 ≤ status ∨ status = 0 ∨ code.truthy = false ∨ code.hashable = true

/-- A failure can be read: the error, if there is one, is an object whose code can be looked
up. -/
def ErrorReadable (status : ℕ) (items : List (Key PyFloat × Payload)) : Prop :=
  ∃ err, field items "error" (.dict []) = .dict err ∧ Classifiable status (field err "code" .none)

/-- The answer to a POST can be read: an object whose payload, if it is a success, is an
object. -/
def PlaceReadable (status : ℕ) (payload : Payload) : Prop :=
  ∃ items, payload = .dict items ∧
    if (field items "success" .none).truthy then
      ∃ inner, field items "payload" (.dict []) = .dict inner
    else ErrorReadable status items

/-- A field that is there is a number, or spells one. -/
def Numeric (lit : Literals) (fields : List (Key PyFloat × Payload)) (name : String) : Prop :=
  ∃ v, get? fields name = some v ∧ Ok (v.asFloat lit)

/-- The rows of a log can be added up: each one has a `major` that is a number, and if one of
these is not zero, each one's `price` is a number, and its `fees_amount` and `tid` are, if
they are there. -/
structure RowsReadable (lit : Literals) (rows : List Payload) : Prop where
  majors : ∀ t ∈ rows, ∃ fields, t = .dict fields ∧ Numeric lit fields "major"
  rest : (∃ t ∈ rows, ∃ fields v x, t = .dict fields ∧ get? fields "major" = some v ∧
      v.asFloat lit = .ok x ∧ x ≠ .fin 0) →
    ∀ t ∈ rows, ∃ fields, t = .dict fields ∧ Numeric lit fields "price" ∧
      Ok ((field fields "fees_amount" (.float (.fin 0))).asFloat lit) ∧
      Ok ((field fields "tid" (.int 0)).asInt lit)

/-- The answer to a GET can be read: an object whose payload, if it is a success, is empty or a
list of readable rows. -/
def ReconcileReadable (lit : Literals) (status : ℕ) (payload : Payload) : Prop :=
  ∃ items, payload = .dict items ∧
    if (field items "success" .none).truthy then
      (field items "payload" (.list [])).truthy = true →
        ∃ rows, field items "payload" (.list []) = .list rows ∧ RowsReadable lit rows
    else ErrorReadable status items

/-! ## One step at a time -/

/-- The transport answers exactly where the response can be decoded. -/
theorem ok_httpTransport_bind {fl : Floats PyFloat} {limits : Limits PyFloat}
    {http : PayloadRequest → HttpResponse} {request : PayloadRequest} {A : Type}
    {f : ℕ × Payload → Except String A} :
    Ok (httpTransport fl limits http request >>= f) ↔ (http request).Decodable limits ∧
      Ok (f ((http request).status, (http request).payload fl)) := by
  unfold httpTransport
  cases http request with
  | unreachable => exact (and_iff_right trivial).symm
  | failed exception => exact iff_of_false (not_ok_error _) And.left
  | text status raw =>
      dsimp only
      by_cases hempty : raw = []
      · subst hempty
        exact (and_iff_right (Or.inl rfl)).symm
      · rw [if_neg (by simpa using hempty)]
        unfold loadsWithin
        cases hreading : limits.reading raw with
        | some limit =>
            refine iff_of_false (not_ok_error _) ?_
            rintro ⟨h | h, -⟩
            · exact hempty h
            · rw [hreading] at h
              cases h
        | none =>
            refine Iff.trans ?_ (and_iff_right (Or.inr hreading)).symm
            show _ ↔ Ok (f (status, (loads fl raw).getD (dict [])))
            cases loads fl raw with
            | none => exact Iff.rfl
            | some payload => exact Iff.rfl

theorem ok_attrGet_bind {A : Type} {v : Payload} {name : String}
    {f : Option Payload → Except String A} :
    Ok (v.attrGet name >>= f) ↔ ∃ items, v = .dict items ∧ Ok (f (get? items name)) := by
  rw [ok_bind]
  constructor
  · rintro ⟨r, hr, hok⟩
    obtain ⟨items, hv, rfl⟩ := attrGet_eq_ok.mp hr
    exact ⟨items, hv, hok⟩
  · rintro ⟨items, rfl, hok⟩
    exact ⟨_, rfl, hok⟩

theorem attrGet_dict_bind {A : Type} {items : List (Key PyFloat × Payload)} {name : String}
    {f : Option Payload → Except String A} :
    ((Val.dict items : Payload).attrGet name >>= f) = f (get? items name) := rfl

theorem ok_subscript_bind {A : Type} {v : Payload} {name : String} {f : Payload → Except String A} :
    Ok (v.subscript name >>= f) ↔
      ∃ items w, v = .dict items ∧ get? items name = some w ∧ Ok (f w) := by
  rw [ok_bind]
  constructor
  · rintro ⟨w, hw, hok⟩
    obtain ⟨items, hv, hget⟩ := subscript_eq_ok.mp hw
    exact ⟨items, w, hv, hget, hok⟩
  · rintro ⟨items, w, hv, hget, hok⟩
    exact ⟨w, subscript_eq_ok.mpr ⟨items, hv, hget⟩, hok⟩

theorem ok_classifyPayload {status : ℕ} {code : Payload} :
    Ok (classifyPayload status code) ↔ Classifiable status code := by
  unfold classifyPayload Classifiable
  dsimp only
  by_cases h420 : status = 420
  · rw [if_pos h420]
    exact iff_of_true (ok_pure _) (Or.inl h420)
  rw [if_neg h420]
  by_cases h500 : 500 ≤ status ∨ status = 0
  · rw [if_pos h500]
    exact iff_of_true (ok_pure _) (Or.inr (or_assoc.mp (Or.inl h500)))
  rw [if_neg h500]
  obtain ⟨hserver, hzero⟩ := not_or.mp h500
  by_cases hcode : (code.truthy && !code.hashable) = true
  · rw [if_pos hcode]
    refine iff_of_false (not_ok_error _) ?_
    obtain ⟨htruthy, hhash⟩ := Bool.and_eq_true_iff.mp hcode
    rintro (h | h | h | h | h)
    · exact h420 h
    · exact hserver h
    · exact hzero h
    · rw [htruthy] at h
      cases h
    · rw [h] at hhash
      cases hhash
  · rw [if_neg hcode]
    refine iff_of_true ?_ (Or.inr (Or.inr (Or.inr ?_)))
    · cases code <;> exact ok_pure _
    · cases ht : code.truthy with
      | false => exact Or.inl rfl
      | true =>
          right
          rw [ht, Bool.true_and, Bool.not_eq_true', Bool.not_eq_false] at hcode
          exact hcode

theorem ok_failureCategory {status : ℕ} {items : List (Key PyFloat × Payload)} :
    Ok (failureCategory status (.dict items)) ↔ ErrorReadable status items := by
  unfold failureCategory ErrorReadable
  rw [attrGet_dict_bind, ok_attrGet_bind]
  exact exists_congr fun err => and_congr_right fun _ => ok_classifyPayload

/-- What could be classified with no code in its place can be with the empty one. -/
theorem ok_errorOf {status : ℕ} {items : List (Key PyFloat × Payload)}
    (h : ErrorReadable status items) : Ok (errorOf status (.dict items)) := by
  obtain ⟨err, herr, hcode⟩ := h
  have hclass : Classifiable status ((get? err "code").getD (.str [])) := by
    unfold field at hcode
    cases hget : get? err "code" with
    | none => exact Or.inr (Or.inr (Or.inr (Or.inl rfl)))
    | some c =>
        rw [hget] at hcode
        exact hcode
  obtain ⟨category, hcategory⟩ := ok_classifyPayload.mpr hclass
  have hfield : (get? items "error").getD (.dict []) = .dict err := herr
  refine ⟨⟨category, (get? err "code").getD (.str []),
    (get? err "message").getD (.str (Str.of "unknown error")), status⟩, ?_⟩
  unfold errorOf
  simp only [attrGet, Functor.map, Except.map, bind, Except.bind, hfield, hcategory, pure,
    Except.pure]

/-- A failure that can be classified is either told apart or raised. -/
theorem ok_failure {A : Type} {status : ℕ} {items : List (Key PyFloat × Payload)}
    {f : Category → Except String A}
    (hf : ErrorReadable status items → ∀ category, Ok (f category)) :
    Ok (failureCategory status (.dict items) >>= f) ↔ ErrorReadable status items := by
  rw [ok_bind]
  constructor
  · rintro ⟨category, hcategory, -⟩
    exact ok_failureCategory.mp ⟨category, hcategory⟩
  · intro h
    obtain ⟨category, hcategory⟩ := ok_failureCategory.mpr h
    exact ⟨category, hcategory, hf h category⟩

theorem ok_readPlaced {book : String} {side : Side} {originId : String} {status : ℕ}
    {payload : Payload} :
    Ok (readPlaced book side originId status payload) ↔ PlaceReadable status payload := by
  unfold readPlaced PlaceReadable
  rw [ok_attrGet_bind]
  refine exists_congr fun items => and_congr_right ?_
  rintro rfl
  dsimp only
  unfold field
  cases ((get? items "success").getD .none).truthy with
  | true =>
      rw [if_pos rfl, if_pos rfl, attrGet_dict_bind, ok_attrGet_bind]
      exact exists_congr fun inner => and_iff_left (ok_pure _)
  | false =>
      rw [if_neg Bool.false_ne_true, if_neg Bool.false_ne_true]
      refine ok_failure fun h category => ?_
      split
      · exact ok_pure _
      · obtain ⟨e, he⟩ := ok_errorOf h
        exact ok_bind.mpr ⟨e, he, ok_pure _⟩

/-! ## Rows -/

variable {lit : Literals}

/-- The number under a name, and whatever it is turned into. -/
theorem ok_numeric {t : Payload} {name : String} (f : PyFloat → PyFloat) :
    Ok (t.subscript name >>= fun v => v.asFloat lit >>= fun x => pure (f x)) ↔
      ∃ fields, t = .dict fields ∧ Numeric lit fields name := by
  unfold Numeric
  rw [ok_subscript_bind]
  constructor
  · rintro ⟨fields, v, ht, hget, hok⟩
    obtain ⟨x, hx, -⟩ := ok_bind.mp hok
    exact ⟨fields, ht, v, hget, x, hx⟩
  · rintro ⟨fields, ht, v, hget, x, hx⟩
    exact ⟨fields, v, ht, hget, ok_bind.mpr ⟨x, hx, ok_pure _⟩⟩

theorem ok_major {t : Payload} :
    Ok (major lit t) ↔ ∃ fields, t = .dict fields ∧ Numeric lit fields "major" :=
  ok_numeric PyFloat.abs

theorem ok_value {t : Payload} (hmajor : Ok (major lit t)) :
    Ok (value lit t) ↔ ∃ fields, t = .dict fields ∧ Numeric lit fields "price" := by
  unfold value
  obtain ⟨base, hbase⟩ := hmajor
  rw [hbase]
  exact ok_numeric base.mul

theorem ok_feesAmount {t : Payload} : Ok (feesAmount lit t) ↔
    ∃ fields, t = .dict fields ∧
      Ok ((field fields "fees_amount" (.float (.fin 0))).asFloat lit) := ok_attrGet_bind

theorem ok_tid {t : Payload} : Ok (tid lit t) ↔
    ∃ fields, t = .dict fields ∧ Ok ((field fields "tid" (.int 0)).asInt lit) := ok_attrGet_bind

theorem major_eq_ok {t : Payload} {m : PyFloat} (h : major lit t = .ok m) :
    ∃ fields v x, t = .dict fields ∧ get? fields "major" = some v ∧ v.asFloat lit = .ok x ∧
      m = x.abs := by
  obtain ⟨fields, ht, v, hget, x, hx⟩ := ok_major.mp ⟨m, h⟩
  refine ⟨fields, v, x, ht, hget, hx, ?_⟩
  rw [major, ht] at h
  simp only [subscript, hget, bind, Except.bind, hx, pure, Except.pure] at h
  exact (Except.ok.inj h).symm

/-- The majors that were read are the absolute values of what the rows spell. -/
theorem majors_read {rows : List Payload} {majors : List PyFloat}
    (h : rows.mapM (major lit) = .ok majors) :
    ∃ xs : List PyFloat, majors = xs.map PyFloat.abs ∧ ((∃ x ∈ xs, x ≠ .fin 0) ↔
      ∃ t ∈ rows, ∃ fields v x, t = .dict fields ∧ get? fields "major" = some v ∧
        v.asFloat lit = .ok x ∧ x ≠ .fin 0) := by
  induction rows generalizing majors with
  | nil =>
      obtain rfl := Except.ok.inj h
      exact ⟨[], rfl, by simp⟩
  | cons t rows ih =>
      rw [List.mapM_cons] at h
      cases hm : major lit t with
      | error e =>
          rw [hm] at h
          cases h
      | ok m =>
          cases hms : rows.mapM (major lit) with
          | error e =>
              rw [hm, hms] at h
              cases h
          | ok ms =>
              rw [hm, hms] at h
              obtain rfl := Except.ok.inj h
              obtain ⟨xs, rfl, hxs⟩ := ih hms
              obtain ⟨fields, v, x, ht, hget, hx, rfl⟩ := major_eq_ok hm
              refine ⟨x :: xs, rfl, ?_⟩
              rw [List.exists_mem_cons_iff, List.exists_mem_cons_iff, hxs]
              refine or_congr_left ?_
              constructor
              · exact fun hne => ⟨fields, v, x, ht, hget, hx, hne⟩
              · rintro ⟨fields', v', x', ht', hget', hx', hne⟩
                rw [ht] at ht'
                cases ht'
                rw [hget] at hget'
                cases hget'
                rw [hx] at hx'
                cases hx'
                exact hne

/-- The majors that were read add up to nothing exactly when each of them is zero. -/
theorem majors_nonpos {rows : List Payload} {majors : List PyFloat}
    (h : rows.mapM (major lit) = .ok majors) :
    (PyFloat.sum majors).nonpos = false ↔
      ∃ t ∈ rows, ∃ fields v x, t = .dict fields ∧ get? fields "major" = some v ∧
        v.asFloat lit = .ok x ∧ x ≠ .fin 0 := by
  obtain ⟨xs, rfl, hxs⟩ := majors_read h
  rw [← hxs, ← Bool.not_eq_true, PyFloat.sum_abs_nonpos]
  push Not
  rfl

/-- What the loops over the rows come to. -/
theorem ok_rows {rows : List Payload} {A : Type} {f : PyFloat → A}
    {g : PyFloat → PyFloat → PyFloat → List ℤ → A} :
    Ok (rows.mapM (major lit) >>= fun majors =>
      if (PyFloat.sum majors).nonpos then .ok (f (PyFloat.sum majors))
      else rows.mapM (value lit) >>= fun values => rows.mapM (feesAmount lit) >>= fun fees =>
        rows.mapM (tid lit) >>= fun tids =>
          .ok (g (PyFloat.sum majors) (PyFloat.sum values) (PyFloat.sum fees) tids) :
        Except String A) ↔ RowsReadable lit rows := by
  rw [ok_bind]
  constructor
  · rintro ⟨majors, hmajors, hok⟩
    have hall := ok_mapM.mp ⟨majors, hmajors⟩
    refine ⟨fun t ht => ok_major.mp (hall t ht), ?_⟩
    intro hnonzero t ht
    rw [(majors_nonpos hmajors).mpr hnonzero, if_neg Bool.false_ne_true] at hok
    obtain ⟨values, hvalues, hok⟩ := ok_bind.mp hok
    obtain ⟨fees, hfees, hok⟩ := ok_bind.mp hok
    obtain ⟨tids, htids, -⟩ := ok_bind.mp hok
    obtain ⟨fields, rfl, hprice⟩ := (ok_value (hall t ht)).mp (ok_mapM.mp ⟨values, hvalues⟩ t ht)
    obtain ⟨_, h, hfee⟩ := ok_feesAmount.mp (ok_mapM.mp ⟨fees, hfees⟩ _ ht)
    cases h
    obtain ⟨_, h, htid⟩ := ok_tid.mp (ok_mapM.mp ⟨tids, htids⟩ _ ht)
    cases h
    exact ⟨fields, rfl, hprice, hfee, htid⟩
  · intro h
    have hall : ∀ t ∈ rows, Ok (major lit t) := fun t ht => ok_major.mpr (h.majors t ht)
    obtain ⟨majors, hmajors⟩ := ok_mapM.mpr hall
    refine ⟨majors, hmajors, ?_⟩
    cases hzero : (PyFloat.sum majors).nonpos with
    | true => exact ok_pure _
    | false =>
        rw [if_neg Bool.false_ne_true]
        have hrest := h.rest ((majors_nonpos hmajors).mp hzero)
        obtain ⟨values, hvalues⟩ := ok_mapM.mpr fun t ht =>
          (ok_value (hall t ht)).mpr
            (let ⟨fields, ht', hprice, _⟩ := hrest t ht; ⟨fields, ht', hprice⟩)
        obtain ⟨fees, hfees⟩ := ok_mapM.mpr fun t ht =>
          ok_feesAmount.mpr (let ⟨fields, ht', _, hfee, _⟩ := hrest t ht; ⟨fields, ht', hfee⟩)
        obtain ⟨tids, htids⟩ := ok_mapM.mpr fun t ht =>
          ok_tid.mpr (let ⟨fields, ht', _, _, htid⟩ := hrest t ht; ⟨fields, ht', htid⟩)
        exact ok_bind.mpr ⟨values, hvalues,
          ok_bind.mpr ⟨fees, hfees, ok_bind.mpr ⟨tids, htids, ok_pure _⟩⟩⟩

end TreasuryForge.Orders.Bitso

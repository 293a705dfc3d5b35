/-
# `Orders.Contained` — which answers raise something else than a `BitsoError`

`contained_iff`, and the step down to the typed executor of `Orders.Bitso`: on a payload that
spells a typed response, the executor on payloads of any shape is that one.
-/
import TreasuryForge.Orders.Payload

namespace TreasuryForge.Orders.Bitso

open JsonText JsonText.Val Raising

variable {lit : Literals}

/-! ## Logs that are no list -/

/-- A log that is there and is no list raises when its first row is read. -/
theorem log_is_list {log : Payload} (htruthy : log.truthy = true)
    (h : Ok (log.iter >>= fun rows => rows.mapM (major lit))) : ∃ rows, log = .list rows := by
  have hkey : ∀ (v : Payload) (vs : List Payload), ¬ Ok (v.subscript "major") →
      ¬ Ok ((v :: vs).mapM (major lit)) := by
    intro v vs hv hok
    obtain ⟨m, hm⟩ := ok_mapM.mp hok v List.mem_cons_self
    obtain ⟨w, hw, -⟩ := ok_bind.mp (show Ok (v.subscript "major" >>= _) from ⟨m, hm⟩)
    exact hv ⟨w, hw⟩
  cases log with
  | list rows => exact ⟨rows, rfl⟩
  | dict items =>
      cases items with
      | nil => cases htruthy
      | cons item items =>
          exact absurd h (hkey _ (items.map fun i : Key PyFloat × Payload => ofKey i.1)
            (not_ok_subscript_ofKey item.1 "major"))
  | str s =>
      cases s with
      | nil => cases htruthy
      | cons c s =>
          exact absurd h (hkey _ (s.map fun c => .str [c])
            (not_ok_subscript_ofKey (.str [c]) "major"))
  | none => cases htruthy
  | bool b => exact absurd h (not_ok_error _)
  | int n => exact absurd h (not_ok_error _)
  | float x => exact absurd h (not_ok_error _)

/-- What is read from a log that is a list. -/
theorem ok_log_rows (side : Side) (symbol : String) {rows : List Payload} :
    Ok (rows.mapM (major lit) >>= fun majors =>
      if (PyFloat.sum majors).nonpos then
        .ok (.ok (PayloadReconciled.unfilled "zero base filled"))
      else rows.mapM (value lit) >>= fun values => rows.mapM (feesAmount lit) >>= fun fees =>
        rows.mapM (tid lit) >>= fun tids =>
          .ok (.ok (PayloadReconciled.fill (fillOf side symbol (PyFloat.sum majors)
            (PyFloat.sum values) (PyFloat.sum fees) tids))) :
        Except String (Except PayloadError PayloadReconciled)) ↔ RowsReadable lit rows :=
  ok_rows (A := Except PayloadError PayloadReconciled)
    (f := fun _ => .ok (.unfilled "zero base filled"))
    (g := fun base notional fee tids => .ok (.fill (fillOf side symbol base notional fee tids)))

theorem ok_readReconciled {side : Side} {symbol : String} {status : ℕ} {payload : Payload} :
    Ok (readReconciled lit side symbol status payload) ↔
      ReconcileReadable lit status payload := by
  unfold readReconciled ReconcileReadable
  rw [ok_attrGet_bind]
  refine exists_congr fun items => and_congr_right ?_
  rintro rfl
  dsimp only
  unfold field
  cases ((get? items "success").getD .none).truthy with
  | true =>
      rw [if_pos rfl, if_pos rfl, attrGet_dict_bind]
      generalize (get? items "payload").getD (.list []) = log
      cases htruthy : log.truthy with
      | false =>
          rw [if_neg Bool.false_ne_true]
          exact iff_of_true (ok_pure _) fun h => absurd h Bool.false_ne_true
      | true =>
          rw [if_pos rfl]
          constructor
          · intro hok _
            have hmajors : Ok (log.iter >>= fun rows => rows.mapM (major lit)) := by
              obtain ⟨rows, hrows, hrest⟩ := ok_bind.mp hok
              obtain ⟨majors, hmajors, -⟩ := ok_bind.mp hrest
              exact ok_bind.mpr ⟨rows, hrows, majors, hmajors⟩
            obtain ⟨rows, rfl⟩ := log_is_list htruthy hmajors
            exact ⟨rows, rfl, (ok_log_rows side symbol).mp hok⟩
          · intro h
            obtain ⟨rows, rfl, hreadable⟩ := h rfl
            exact (ok_log_rows side symbol).mpr hreadable
  | false =>
      rw [if_neg Bool.false_ne_true, if_neg Bool.false_ne_true]
      refine ok_failure fun h category => ?_
      split
      · obtain ⟨e, he⟩ := ok_errorOf h
        exact ok_bind.mpr ⟨e, he, ok_pure _⟩
      · exact ok_pure _

/-! ## Containment -/

/-- For every intent that has parameters and every response, `place_order` and `reconcile` end in a
result or a `BitsoError` exactly when the response can be decoded and read, and the request
signed. -/
theorem contained_iff {ex : BitsoExecutor} {intent : Intent} {params : Params}
    (hparams : ex.toParams intent = .ok params) (fl : Floats PyFloat) (limits : Limits PyFloat)
    (http : PayloadRequest → HttpResponse) (originId : String) (handle : PayloadHandle)
    (symbol : String) :
    let placed := http (.post { params with originId := originId })
    let reconciled := http handle.request
    (Ok (placeOrderPayload ex (httpTransport fl limits http) intent originId) ↔
        placed.Decodable limits ∧ PlaceReadable placed.status (placed.payload fl)) ∧
      (Ok (reconcilePayload lit (httpTransport fl limits http) handle symbol) ↔
        handle.request.signable = true ∧ reconciled.Decodable limits ∧
          ReconcileReadable lit reconciled.status (reconciled.payload fl)) := by
  intro placed reconciled
  constructor
  · rw [placeOrderPayload, hparams]
    exact ok_httpTransport_bind.trans (and_congr_right fun _ => ok_readPlaced)
  · rw [reconcilePayload]
    cases handle.request.signable with
    | true =>
        rw [if_pos rfl, ok_httpTransport_bind, ok_readReconciled]
        exact (and_iff_right rfl).symm
    | false =>
        rw [if_neg Bool.false_ne_true]
        exact iff_of_false (not_ok_error _) fun h => Bool.false_ne_true h.1

def emptyObject : HttpResponse := .text 200 "\x7b\x7d".toList

def emptyList : HttpResponse := .text 200 "[]".toList

def boughtOne : Intent := { symbol := "btc_mxn", side := .buy, baseAmount := 1 }

def unplaced : PayloadHandle := ⟨"o", .none, "btc_mxn", .buy⟩

theorem contained_iff_empty :
    let transport := httpTransport PyFloat.exact .none fun _ => emptyObject
    let payload := emptyObject.payload PyFloat.exact
    (Ok (placeOrderPayload {} transport boughtOne "o") ↔
        emptyObject.Decodable .none ∧ PlaceReadable 200 payload) ∧
      (Ok (reconcilePayload .none transport unplaced "BTC") ↔
        unplaced.request.signable = true ∧ emptyObject.Decodable .none ∧
          ReconcileReadable .none 200 payload) :=
  have hparams : BitsoExecutor.toParams {} boughtOne =
      .ok { book := "btc_mxn", side := "buy", type := "market", major := some 1 } := by
    decide +kernel
  contained_iff hparams PyFloat.exact .none (fun _ => emptyObject) "o" unplaced "BTC"

/-- A list where an object should be leaves both functions as an `AttributeError`. -/
theorem list_not_contained :
    let transport := httpTransport PyFloat.exact .none fun _ => emptyList
    placeOrderPayload {} transport boughtOne "o" =
        .error "AttributeError: 'list' object has no attribute 'get'" ∧
      reconcilePayload .none transport unplaced "BTC" =
        .error "AttributeError: 'list' object has no attribute 'get'" := by
  intro transport
  have hparams : BitsoExecutor.toParams {} boughtOne =
      .ok { book := "btc_mxn", side := "buy", type := "market", major := some 1 } := by
    decide +kernel
  constructor
  · rw [placeOrderPayload, hparams]
    rfl
  · rfl

/-! ## Typed responses -/

/-- A text that may be missing, as the field it is read from. -/
def optionalField (name : String) (value : Option String) : List (String × Payload) :=
  (value.map fun s => (name, Val.str (Str.of s))).toList

/-- `{"code": .., "message": ..}`, as far as they are there. -/
def Response.errorPayload (r : Response) : Payload :=
  .dict (fields (optionalField "code" r.code ++ optionalField "message" r.message))

/-- The answer to a POST. -/
def Response.placedPayload (r : Response) : Payload :=
  .dict (fields [("success", .bool r.success),
    ("payload", .dict (fields (optionalField "oid" r.oid))), ("error", r.errorPayload)])

def TradeRow.payload (t : TradeRow) : Payload :=
  .dict (fields [("major", .float (.fin t.major)), ("price", .float (.fin t.price)),
    ("fees_amount", .float (.fin t.feesAmount)), ("tid", .int t.tid)])

/-- The answer to a GET. -/
def Response.reconciledPayload (r : Response) : Payload :=
  .dict (fields [("success", .bool r.success),
    ("payload", .list (r.trades.map TradeRow.payload)), ("error", r.errorPayload)])

def textOrNone (s : Option String) : Payload := (s.map fun s => .str (Str.of s)).getD .none

def PayloadHandle.ofHandle (h : OrderHandle) : PayloadHandle :=
  ⟨h.originId, textOrNone h.oid, h.book, h.side⟩

def PayloadError.ofError (e : BitsoError) : PayloadError :=
  ⟨e.category, .str (Str.of e.code), .str (Str.of e.message), e.httpStatus⟩

def PayloadReconciled.ofReconciled : ReconcileResult → PayloadReconciled
  | .fill f =>
      .fill ⟨f.symbol, f.side, .fin f.baseAmount, .fin f.price, .fin f.fee, f.ts, f.feeCurrency⟩
  | .unfilled reason => .unfilled reason

/-- What the typed executor came to, as this one says it. -/
def ofTyped {A B : Type} (f : A → B) : Except Raised A → Except String (Except PayloadError B)
  | .ok a => .ok (.ok (f a))
  | .error (.bitso e) => .ok (.error (PayloadError.ofError e))
  | .error (.other e) => .error e

theorem lookup_optionalField (name : String) (value : Option String)
    (rest : List (String × Payload)) : (optionalField name value ++ rest).lookup name =
      (value.map fun s => .str (Str.of s)).or (rest.lookup name) := by
  cases value with
  | none => rfl
  | some s =>
      show ((name, Val.str (Str.of s)) :: rest).lookup name = _
      rw [List.lookup_cons, beq_self_eq_true]
      rfl

theorem lookup_optionalField_of_ne {name other : String} (h : other ≠ name)
    (value : Option String) (rest : List (String × Payload)) :
    (optionalField name value ++ rest).lookup other = rest.lookup other := by
  cases value with
  | none => rfl
  | some s =>
      show ((name, Val.str (Str.of s)) :: rest).lookup other = _
      rw [List.lookup_cons, beq_false_of_ne h]

theorem codeCategory_of (code : String) : codeCategory (Str.of code) = codes.get? code := by
  have hfind : ∀ items : List (String × Category),
      (items.findSome? fun p => if Str.of p.1 = Str.of code then some p.2 else none) =
        (items.find? fun p => p.1 = code).map Prod.snd := by
    intro items
    induction items with
    | nil => rfl
    | cons p items ih =>
        rw [List.findSome?_cons, List.find?_cons]
        by_cases h : p.1 = code
        · rw [if_pos (congrArg Str.of h), decide_eq_true h]
          rfl
        · rw [if_neg fun he => h (of_injective he), decide_eq_false h]
          exact ih
  exact hfind codes.items

theorem classify_eq (status : ℕ) (code : Option String) :
    classify status code =
      if status = 420 then .retryableBackoff
      else if 500 ≤ status ∨ status = 0 then .indeterminate
      else (code.bind codes.get?).getD
        (if status = 200 ∨ status = 201 then .ok
          else if status = 401 ∨ status = 403 then .fatalAuth else .nonRetryable) := by
  unfold classify
  cases code.bind codes.get? <;> rfl

theorem classifyPayload_str (status : ℕ) (code : String) :
    classifyPayload status (.str (Str.of code)) = .ok (classify status (some code)) := by
  rw [classify_eq]
  unfold classifyPayload
  dsimp only
  rw [show hashable (.str (Str.of code) : Payload) = true from rfl, Bool.not_true, Bool.and_false,
    if_neg Bool.false_ne_true, codeCategory_of]
  split_ifs <;> rfl

theorem classifyPayload_none (status : ℕ) :
    classifyPayload status .none = .ok (classify status none) := by
  rw [classify_eq]
  unfold classifyPayload
  dsimp only
  rw [show truthy (.none : Payload) = false from rfl, Bool.false_and, if_neg Bool.false_ne_true]
  split_ifs <;> rfl

/-- No code is the empty one. -/
theorem classify_empty (status : ℕ) : classify status (some "") = classify status none := by
  rw [classify_eq, classify_eq]
  rfl

theorem failureCategory_typed {items : List (Key PyFloat × Payload)} {r : Response}
    (h : get? items "error" = some r.errorPayload) :
    failureCategory r.status (.dict items) = .ok (classify r.status r.code) := by
  unfold failureCategory Response.errorPayload at *
  rw [attrGet_dict_bind, h, Option.getD_some, attrGet_dict_bind, get?_fields, lookup_optionalField]
  cases r.code with
  | some code => exact classifyPayload_str r.status code
  | none =>
      rw [Option.map_none, Option.none_or, ← List.append_nil (optionalField _ _),
        lookup_optionalField_of_ne (by decide)]
      exact classifyPayload_none r.status

theorem errorOf_typed {items : List (Key PyFloat × Payload)} {r : Response}
    (h : get? items "error" = some r.errorPayload) :
    errorOf r.status (.dict items) = .ok (PayloadError.ofError r.error) := by
  have hcode : (get? (fields (optionalField "code" r.code ++ optionalField "message" r.message))
      "code").getD (.str []) = (.str (Str.of (r.code.getD "")) : Payload) := by
    rw [get?_fields, lookup_optionalField]
    cases r.code with
    | some code => rfl
    | none =>
        rw [Option.map_none, Option.none_or, ← List.append_nil (optionalField _ _),
          lookup_optionalField_of_ne (by decide)]
        rfl
  have hmessage : (get? (fields (optionalField "code" r.code ++ optionalField "message" r.message))
      "message").getD (.str (Str.of "unknown error")) =
        (.str (Str.of (r.message.getD "unknown error")) : Payload) := by
    rw [get?_fields, lookup_optionalField_of_ne (by decide),
      ← List.append_nil (optionalField _ _), lookup_optionalField]
    cases r.message <;> rfl
  have hclass : classifyPayload r.status (.str (Str.of (r.code.getD ""))) =
      .ok (classify r.status r.code) := by
    rw [classifyPayload_str]
    cases r.code with
    | some code => rfl
    | none => exact congrArg Except.ok (classify_empty r.status)
  unfold errorOf
  simp only [attrGet, Functor.map, Except.map, bind, Except.bind, pure, Except.pure, h,
    Option.getD_some, Response.errorPayload, hcode, hmessage, hclass]
  rfl

/-- On a payload that spells a response, the executor makes of a POST what the typed one does. -/
theorem readPlaced_typed (book : String) (side : Side) (originId : String) (r : Response) :
    readPlaced book side originId r.status r.placedPayload =
      ofTyped PayloadHandle.ofHandle (BitsoExecutor.placed book side originId (.ok r)) := by
  unfold readPlaced Response.placedPayload BitsoExecutor.placed
  rw [attrGet_dict_bind, get?_fields]
  show (if r.success = true then _ else _) = ofTyped _ (if r.success = true then _ else _)
  cases r.success with
  | true =>
      rw [if_pos rfl, if_pos rfl, attrGet_dict_bind, get?_fields]
      show attrGet (.dict (fields (optionalField "oid" r.oid))) "oid" >>= _ = _
      rw [attrGet_dict_bind, get?_fields, ← List.append_nil (optionalField _ _),
        lookup_optionalField, List.lookup_nil, Option.or_none]
      rfl
  | false =>
      rw [if_neg Bool.false_ne_true, if_neg Bool.false_ne_true,
        failureCategory_typed (r := r) (get?_fields _ _)]
      show (if classify r.status r.code = .submitted then _ else _) = _
      split
      · rfl
      · rw [errorOf_typed (r := r) (get?_fields _ _)]
        rfl

theorem mapM_ok {A B : Type} {f : A → Except String B} {g : A → B} {as : List A}
    (h : ∀ a ∈ as, f a = .ok (g a)) : as.mapM f = .ok (as.map g) := by
  induction as with
  | nil => rfl
  | cons a as ih =>
      rw [List.mapM_cons, h a List.mem_cons_self, ih fun b hb => h b (List.mem_cons_of_mem a hb)]
      rfl

theorem mapM_rows {B : Type} {f : Payload → Except String B} {g : TradeRow → B}
    (h : ∀ t : TradeRow, f t.payload = .ok (g t)) (trades : List TradeRow) :
    (trades.map TradeRow.payload).mapM f = .ok (trades.map g) := by
  rw [List.mapM_map]
  exact mapM_ok fun t _ => h t

theorem sum_map_fin {A : Type} (f : A → ℚ) (as : List A) :
    PyFloat.sum (as.map fun a => .fin (f a)) = .fin (as.map f).sum := by
  rw [← PyFloat.sum_fin, List.map_map]
  rfl

theorem subscript_fields {ms : List (String × Payload)} {name : String} {v : Payload}
    (h : ms.lookup name = some v) : (dict (fields ms)).subscript name = .ok v :=
  subscript_eq_ok.mpr ⟨_, rfl, by rw [get?_fields, h]⟩

theorem major_typed (t : TradeRow) : major lit t.payload = .ok (.fin |t.major|) := by
  rw [major, TradeRow.payload, subscript_fields rfl]
  rfl

theorem value_typed (t : TradeRow) : value lit t.payload = .ok (.fin (|t.major| * t.price)) := by
  rw [value, major_typed, TradeRow.payload]
  show ((dict (fields _) : Payload).subscript "price" >>= _) = _
  rw [subscript_fields rfl]
  rfl

theorem feesAmount_typed (t : TradeRow) : feesAmount lit t.payload = .ok (.fin t.feesAmount) := by
  rw [feesAmount, TradeRow.payload, attrGet_dict_bind, get?_fields]
  rfl

theorem tid_typed (t : TradeRow) : tid lit t.payload = .ok t.tid := by
  rw [tid, TradeRow.payload, attrGet_dict_bind, get?_fields]
  rfl

/-- And of a GET. -/
theorem readReconciled_typed (handle : OrderHandle) (symbol : String) (r : Response) :
    readReconciled lit handle.side symbol r.status r.reconciledPayload =
      ofTyped PayloadReconciled.ofReconciled (BitsoExecutor.reconciled handle symbol (.ok r)) := by
  unfold readReconciled Response.reconciledPayload BitsoExecutor.reconciled
  rw [attrGet_dict_bind, get?_fields]
  show (if r.success = true then _ else _) = ofTyped _ (if r.success = true then _ else _)
  cases r.success with
  | true =>
      rw [if_pos rfl, if_pos rfl, attrGet_dict_bind, get?_fields]
      show (if (Val.list (r.trades.map TradeRow.payload) : Payload).truthy = true then _ else _) = _
      by_cases hnil : r.trades = []
      · rw [hnil, if_pos rfl]
        rfl
      · have htruthy : (Val.list (r.trades.map TradeRow.payload) : Payload).truthy = true := by
          show (!(r.trades.map TradeRow.payload).isEmpty) = true
          rw [List.isEmpty_map, Bool.not_eq_true', List.isEmpty_eq_false_iff]
          exact hnil
        rw [if_pos htruthy, if_neg hnil]
        show (r.trades.map TradeRow.payload).mapM (major lit) >>= _ = _
        rw [mapM_rows major_typed]
        show (if (PyFloat.sum (r.trades.map fun t => .fin |t.major|)).nonpos = true then _
          else (r.trades.map TradeRow.payload).mapM (value lit) >>= _) = _
        rw [mapM_rows value_typed, sum_map_fin]
        show (if decide (_ ≤ (0 : ℚ)) = true then _
          else (r.trades.map TradeRow.payload).mapM (feesAmount lit) >>= _) = _
        rw [mapM_rows feesAmount_typed]
        dsimp only
        by_cases hzero : (r.trades.map fun t => |t.major|).sum ≤ 0
        · rw [if_pos hzero, if_pos (decide_eq_true hzero)]
          rfl
        · rw [if_neg hzero, if_neg fun h => hzero (of_decide_eq_true h)]
          show (r.trades.map TradeRow.payload).mapM (tid lit) >>= _ = _
          rw [mapM_rows tid_typed]
          show Except.ok (Except.ok (PayloadReconciled.fill (fillOf handle.side symbol _
            (PyFloat.sum (r.trades.map fun t => .fin (|t.major| * t.price)))
            (PyFloat.sum (r.trades.map fun t => .fin t.feesAmount)) _))) = _
          rw [sum_map_fin, sum_map_fin]
          rfl
  | false =>
      rw [if_neg Bool.false_ne_true, if_neg Bool.false_ne_true,
        failureCategory_typed (r := r) (get?_fields _ _)]
      show (if classify r.status r.code = .fatalAuth ∨ classify r.status r.code = .nonRetryable
        then _ else _) = _
      dsimp only
      split
      · rw [errorOf_typed (r := r) (get?_fields _ _)]
        rfl
      · rfl

end TreasuryForge.Orders.Bitso

/-
# `Orders.LadderProtocol` — the ladder climbs its rungs in order

Each reader of `Orders.Ladder` is turned into what it shows of an answer, and each function of the
ladder into how it moves from stage to stage.  `ladder_order` reads the calls of any run off that,
`ladder_report` the results.
-/
import TreasuryForge.Base.Loop
import TreasuryForge.Orders.Contained
import TreasuryForge.Orders.Ladder

namespace TreasuryForge.Orders.Bitso

open JsonText JsonText.Val Raising Resume Protocol Loop

/-! ## What a reader has seen -/

theorem getOr_eq_ok {v w default : Payload} {name : String} :
    getOr v name default = .ok w ↔ ∃ items, v = .dict items ∧ w = field items name default := by
  unfold getOr
  constructor
  · intro h
    cases hget : v.attrGet name with
    | error e =>
        rw [hget] at h
        cases h
    | ok r =>
        rw [hget] at h
        cases h
        obtain ⟨items, rfl, rfl⟩ := attrGet_eq_ok.mp hget
        exact ⟨items, rfl, rfl⟩
  · rintro ⟨items, rfl, rfl⟩
    rfl

theorem succeeded_eq_ok {payload : Payload} {b : Bool} (h : succeeded payload = .ok b) :
    ∃ items, payload = .dict items ∧ (field items "success" .none).truthy = b := by
  unfold succeeded at h
  cases hget : getOr payload "success" .none with
  | error e =>
      rw [hget] at h
      cases h
  | ok v =>
      rw [hget] at h
      cases h
      obtain ⟨items, hitems, rfl⟩ := getOr_eq_ok.mp hget
      exact ⟨items, hitems, rfl⟩

/-- What has members, and came out of a loop over a value, was in a list. -/
theorem iter_of_dict {v : Payload} {rows : List Payload}
    {fields : List (Key PyFloat × Payload)} (h : v.iter = .ok rows) (hmem : .dict fields ∈ rows) :
    v = .list rows := by
  cases v with
  | list vs =>
      cases h
      rfl
  | dict items =>
      cases h
      obtain ⟨item, -, hitem⟩ := List.mem_map.mp hmem
      generalize item.1 = key at hitem
      cases key <;> cases hitem
  | str s =>
      cases h
      obtain ⟨c, -, hc⟩ := List.mem_map.mp hmem
      cases hc
  | none => cases h
  | bool b => cases h
  | int n => cases h
  | float x => cases h

theorem lists_of_listedBook {book : String} {r : ℕ × Payload} {bk : Payload}
    (h : listedBook book r = .ok (some bk)) : Lists book r := by
  obtain ⟨books, hbooks, hfind⟩ := bind_eq_ok.mp h
  have hstatus : r.1 = 200 ∧ findBook book books = some bk := by
    have hif := Except.ok.inj hfind
    split at hif
    · exact ⟨‹_›, hif⟩
    · cases hif
  obtain ⟨entry, hentry, rfl⟩ := Option.map_eq_some_iff.mp hstatus.2
  have hmem := List.mem_reverse.mp (List.mem_of_find?_eq_some hentry)
  have htext := List.find?_some hentry
  obtain ⟨b, hb, hrest⟩ := bind_eq_ok.mp hbooks
  obtain ⟨items, hitems, hsuccess⟩ := succeeded_eq_ok hb
  cases b with
  | false =>
      cases hrest
      cases hmem
  | true =>
      rw [if_pos rfl] at hrest
      obtain ⟨payload, hpayload, hrest⟩ := bind_eq_ok.mp hrest
      obtain ⟨rows, hrows, hloop⟩ := bind_eq_ok.mp hrest
      obtain ⟨items', hitems', rfl⟩ := getOr_eq_ok.mp hpayload
      obtain rfl : items = items' := by
        rw [hitems] at hitems'
        exact Val.dict.inj hitems'
      obtain ⟨row, hrow, hkey⟩ := (mapM_eq_ok hloop).1 entry hmem
      obtain ⟨key, hsub, hkey⟩ := bind_eq_ok.mp hkey
      obtain ⟨fields, rfl, hget⟩ := subscript_eq_ok.mp hsub
      have he : entry = (key, .dict fields) := by
        split at hkey
        · exact (Except.ok.inj hkey).symm
        · cases hkey
      rw [he] at htext
      exact ⟨hstatus.1, items, rows, fields, key, hitems, hsuccess, iter_of_dict hrows hrow, hrow,
        hget, htext⟩

theorem succeeds_of_answered {r : ℕ × Payload} (h : answered r = .ok true) : Succeeds r := by
  unfold answered at h
  split at h
  · next hstatus =>
      obtain ⟨items, hitems, hsuccess⟩ := succeeded_eq_ok h
      exact ⟨hstatus, items, hitems, hsuccess⟩
  · cases h

theorem refuses_of_probed {r : ℕ × Payload} {result : RungResult} (h : probed r = .ok result)
    (hfail : result.status ≠ .fail) : Refuses r := by
  obtain ⟨error, herror, h⟩ := bind_eq_ok.mp h
  obtain ⟨code, hcode, h⟩ := bind_eq_ok.mp h
  obtain ⟨b, hb, h⟩ := bind_eq_ok.mp h
  obtain ⟨items, hitems, rfl⟩ := getOr_eq_ok.mp herror
  obtain ⟨err, herr, rfl⟩ := getOr_eq_ok.mp hcode
  obtain ⟨items', hitems', hsuccess⟩ := succeeded_eq_ok hb
  obtain rfl : items = items' := by
    rw [hitems] at hitems'
    exact Val.dict.inj hitems'
  by_cases haccepted : (b || r.1 = 200 || r.1 = 201) = true
  · rw [if_pos haccepted] at h
    cases h
    exact absurd rfl hfail
  · rw [if_neg haccepted] at h
    have hno : b = false ∧ r.1 ≠ 200 ∧ r.1 ≠ 201 := by simpa [and_assoc] using haccepted
    refine ⟨items, err, hitems, herr, hsuccess.trans hno.1, hno.2.1, hno.2.2, ?_⟩
    by_cases hscope : isText (field err "code" (.str [])) "0202" = true
    · exact Or.inl hscope
    rw [if_neg hscope] at h
    by_cases hmissing : r.1 = 404
    · exact Or.inr (Or.inl hmissing)
    rw [if_neg hmissing] at h
    by_cases hhash : (field err "code" (.str [])).hashable = false
    · rw [if_pos hhash] at h
      cases h
    rw [if_neg hhash] at h
    by_cases hauth : authFailed.any (isText (field err "code" (.str []))) = true
    · exact Or.inr (Or.inr (List.any_eq_true.mp hauth))
    · rw [if_neg hauth] at h
      cases h
      exact absurd rfl hfail

theorem anyOid_eq_ok {oid : Payload} {rows : List Payload} {b : Bool}
    (h : anyOid oid rows = .ok b) :
    if b then ∃ fields, .dict fields ∈ rows ∧ (field fields "oid" .none).same oid = true
    else ∀ fields, .dict fields ∈ rows → (field fields "oid" .none).same oid = false := by
  induction rows with
  | nil =>
      cases h
      exact fun _ hmem => absurd hmem List.not_mem_nil
  | cons o os ih =>
      obtain ⟨v, hv, h⟩ := bind_eq_ok.mp h
      obtain ⟨fields, rfl, rfl⟩ := getOr_eq_ok.mp hv
      split at h
      · next hsame =>
          cases h
          exact ⟨fields, List.mem_cons_self, hsame⟩
      · next hsame =>
          have hrest := ih h
          cases b with
          | true =>
              obtain ⟨fields', hmem, hsame'⟩ := hrest
              exact ⟨fields', List.mem_cons_of_mem _ hmem, hsame'⟩
          | false =>
              intro fields' hmem
              rcases List.mem_cons.mp hmem with he | hlater
              · cases he
                exact Bool.eq_false_iff.mpr hsame
              · exact hrest fields' hlater

theorem shows_iff_of_showsOid {oid : Payload} {r : ℕ × Payload} {b : Bool}
    (h : showsOid oid r.2 = .ok b) : Shows oid r ↔ b = true := by
  obtain ⟨payload, hpayload, hloop⟩ := bind_eq_ok.mp h
  obtain ⟨rows, hrows, hoids⟩ := bind_eq_ok.mp hloop
  obtain ⟨items, hitems, rfl⟩ := getOr_eq_ok.mp hpayload
  have hany := anyOid_eq_ok hoids
  constructor
  · rintro ⟨items', rows', fields, hitems', hlist, hmem, hsame⟩
    obtain rfl : items = items' := by
      rw [hitems] at hitems'
      exact Val.dict.inj hitems'
    rw [hlist] at hrows
    obtain rfl := Except.ok.inj hrows
    cases b with
    | true => rfl
    | false =>
        rw [hany fields hmem] at hsame
        cases hsame
  · rintro rfl
    obtain ⟨fields, hmem, hsame⟩ := hany
    exact ⟨items, rows, fields, hitems, iter_of_dict hrows hmem, hmem, hsame⟩

/-! ## From stage to stage -/

variable {ex : BitsoExecutor} {a : LadderArgs} {lit : Literals} {es : List Exchange}

/-- What a value that did not raise is good for. -/
theorem keeps_lift {A : Type} {e : Except String A}
    {Q : List Exchange → Except LadderError A → Prop} (hok : ∀ x, e = .ok x → Q es (.ok x))
    (hraise : ∀ text, Q es (.error (.other text))) : (rungs ex a).Keeps es (Run.lift e) Q := by
  cases e with
  | ok x => exact hok x rfl
  | error text => exact hraise text

/-- The next step of the ladder, after a value that did not raise. -/
theorem keeps_lift_bind {A B : Type} {e : Except String A} {f : A → Run B}
    {Q : List Exchange → Except LadderError B → Prop}
    (hok : ∀ x, e = .ok x → (rungs ex a).Keeps es (f x) Q)
    (hraise : ∀ text, Q es (.error (.other text))) :
    (rungs ex a).Keeps es (Run.lift e >>= f) Q :=
  keeps_bind (keeps_lift hok hraise)

theorem keeps_caught {A : Type} {p : Run A} {Q : List Exchange → Except LadderError A → Prop}
    (h : (rungs ex a).Keeps es p Q) :
    (rungs ex a).Keeps es (caught p) fun es' r =>
      match r with
      | .ok (.ok x) => Q es' (.ok x)
      | .ok (.error e) => Q es' (.error (.bitso e))
      | .error e => Q es' (.error e) := by
  refine keeps_tryCatch (keeps_bind (h.mono ?_))
  rintro es' (e | x) hq
  · cases e with
    | bitso e => exact hq
    | other text => exact hq
  · exact hq

/-- The handle is of the side that was asked for. -/
theorem side_of_readPlaced {book : String} {side : Side} {originId : String} {status : ℕ}
    {payload : Payload} {handle : PayloadHandle}
    (h : readPlaced book side originId status payload = .ok (.ok handle)) : handle.side = side := by
  unfold readPlaced at h
  obtain ⟨v, -, h⟩ := bind_eq_ok.mp h
  dsimp only at h
  split at h
  · obtain ⟨inner, -, h⟩ := bind_eq_ok.mp h
    obtain ⟨oid, -, h⟩ := bind_eq_ok.mp h
    cases h
    rfl
  · obtain ⟨category, -, h⟩ := bind_eq_ok.mp h
    split at h
    · cases h
      rfl
    · obtain ⟨e, -, h⟩ := bind_eq_ok.mp h
      cases h

/-- An order that is sent goes through its reader. -/
theorem keeps_placeOrder {body : OrderBody} {stage : Stage} (hstand : Stands ex a es stage)
    (hasks : stage.Asks ex a (.placeOrder body)) :
    (rungs ex a).Keeps es (placeOrder body) fun es' r =>
      ∃ answer, es' = es ++ [⟨.placeOrder body, answer⟩] ∧
        ∀ handle, r = .ok handle → Placed answer handle.oid ∧ handle.side = .buy := by
  refine ⟨⟨stage, hstand, hasks⟩, fun answer => ?_⟩
  show (rungs ex a).Keeps _ (Run.raised (readPlaced _ _ _ answer.1 answer.2)) _
  cases hread : readPlaced body.book .buy body.originId answer.1 answer.2 with
  | error text => exact ⟨answer, rfl, fun _ he => by cases he⟩
  | ok result =>
      cases result with
      | error e => exact ⟨answer, rfl, fun _ he => by cases he⟩
      | ok handle =>
          refine ⟨answer, rfl, fun handle' he => ?_⟩
          cases he
          exact ⟨⟨body.book, body.originId, handle, hread, rfl⟩, side_of_readPlaced hread⟩

/-- Only a resting order that was open, and is not any more, clears the way. -/
theorem keeps_killPath {bk : Payload} (hstand : Stands ex a es .priced) (harm : a.arm = true) :
    (rungs ex a).Keeps es (killPath lit ex a bk) fun es' r =>
      r = .ok (true, false) → Stands ex a es' .cleared := by
  refine keeps_lift_bind (fun body hbody => ?_) fun _ he => by cases he
  have hlimit : body.type = "limit" := by
    unfold restOrder at hbody
    obtain ⟨v, -, hbody⟩ := bind_eq_ok.mp hbody
    obtain ⟨x, -, hbody⟩ := bind_eq_ok.mp hbody
    obtain ⟨w, -, hbody⟩ := bind_eq_ok.mp hbody
    obtain ⟨y, -, hbody⟩ := bind_eq_ok.mp hbody
    cases hbody
    rfl
  refine keeps_bind ((keeps_placeOrder hstand (.rest harm hlimit)).mono ?_)
  rintro es₁ r₁ ⟨placed, rfl, hplaced⟩
  cases r₁ with
  | error e => exact fun he => by cases he
  | ok handle =>
      have hresting := Stands.resting hstand harm hlimit (hplaced handle rfl).1
      refine ⟨⟨_, hresting, .look⟩, fun oo => keeps_lift_bind (fun isOpen hopen => ?_)
        fun _ he => by cases he⟩
      have hlooked := Stands.looked (r := oo) hresting
      refine ⟨⟨_, hlooked, .kill⟩, fun kill => ?_⟩
      have hkilled : Stands ex a (_ ++ [⟨.cancelAll, kill⟩]) (.killed handle.oid oo) :=
        .killed hlooked
      refine ⟨⟨_, hkilled, .lookAgain⟩, fun oo2 => keeps_lift_bind (fun stillOpen hstill => ?_)
        fun _ he => by cases he⟩
      intro he
      cases he
      refine .cleared hkilled ((shows_iff_of_showsOid hopen).mpr rfl) fun hshows => ?_
      exact Bool.false_ne_true ((shows_iff_of_showsOid hstill).mp hshows)

/-- The tiny order was bought and its trades were read. -/
def Bought (lit : Literals) (ex : BitsoExecutor) (a : LadderArgs) (es : List Exchange)
    (result : PayloadReconciled) : Prop :=
  ∃ before request answer, es = before ++ [⟨.userTrades request, answer⟩] ∧
    Stands ex a before .bought ∧
    readReconciled lit .buy a.symbol answer.1 answer.2 = .ok (.ok result)

theorem keeps_tinyOrder (hstand : Stands ex a es .cleared) :
    (rungs ex a).Keeps es (tinyOrder lit ex a) fun es' r =>
      ∀ result, r = .ok result → Bought lit ex a es' result := by
  refine keeps_bind ((keeps_placeOrder hstand .buy).mono ?_)
  rintro es₁ r₁ ⟨placed, rfl, hplaced⟩
  cases r₁ with
  | error e => exact fun _ he => by cases he
  | ok handle =>
      have hbought := Stands.bought (r := placed) hstand
      have hside := (hplaced handle rfl).2
      show (rungs ex a).Keeps _ (reconcile lit handle a.symbol) _
      unfold reconcile
      split
      · refine ⟨⟨_, hbought, .reconcile⟩, fun answer => ?_⟩
        show (rungs ex a).Keeps _ (Run.raised (readReconciled lit handle.side _ _ _)) _
        rw [hside]
        cases hread : readReconciled lit .buy a.symbol answer.1 answer.2 with
        | error text => exact fun _ he => by cases he
        | ok result =>
            cases result with
            | error e => exact fun _ he => by cases he
            | ok result =>
                rintro _ ⟨⟩
                exact ⟨_, handle.request, answer, rfl, hbought, hread⟩
      · exact fun _ he => by cases he

/-! ## The report -/

/-- What a report says of the calls behind it: a failure ends it; without one, the ladder was
read-only and climbed to its fees, or it bought, was filled, and found the fill cheap. -/
structure Reported (lit : Literals) (ex : BitsoExecutor) (a : LadderArgs) (es : List Exchange)
    (out : List RungResult) : Prop where
  last : ∀ r ∈ out.dropLast, r.status ≠ .fail
  green : (∀ r ∈ out, r.status ≠ .fail) →
    (a.arm = false ∧ Stands ex a es .priced) ∨
      (a.arm = true ∧ ∃ f, Bought lit ex a es (.fill f) ∧ cheap f = true)

/-- The rungs so far are green. -/
def Green (out : List RungResult) : Prop := ∀ r ∈ out, r.status ≠ .fail

theorem Green.snoc {out : List RungResult} (h : Green out) {r : RungResult}
    (hr : r.status ≠ .fail) : Green (out ++ [r]) := by
  intro r' hmem
  rcases List.mem_append.mp hmem with hold | hlast
  · exact h r' hold
  · rw [List.mem_singleton.mp hlast]
    exact hr

/-- A report that ends in a failure. -/
theorem reported_failed {out : List RungResult} (h : Green out) {r : RungResult}
    (hr : r.status = .fail) : Reported lit ex a es (out ++ [r]) where
  last := by
    rw [List.dropLast_concat]
    exact h
  green hall := absurd hr (hall r (List.mem_append_right _ (List.mem_singleton_self r)))

theorem keeps_orderRungs {bk : Payload} {out : List RungResult} (hgreen : Green out)
    (hstand : Stands ex a es .priced) (harm : a.arm = true) :
    (rungs ex a).Keeps es (orderRungs lit ex a bk out) fun es' r =>
      ∀ out', r = .ok out' → Reported lit ex a es' out' := by
  refine keeps_bind ((keeps_caught (keeps_killPath hstand harm)).mono ?_)
  rintro es₁ (e | (e | ⟨isOpen, stillOpen⟩)) hkill
  · exact fun _ he => by cases he
  · rintro _ ⟨⟩
    exact reported_failed hgreen rfl
  · show (rungs ex a).Keeps es₁ (if isOpen && !stillOpen then _ else _) _
    by_cases hcleared : (isOpen && !stillOpen) = true
    · rw [if_pos hcleared]
      have hboth : isOpen = true ∧ stillOpen = false := by simpa using hcleared
      obtain ⟨rfl, rfl⟩ := hboth
      refine keeps_bind ((keeps_caught (keeps_tinyOrder (hkill rfl))).mono ?_)
      have hpass := hgreen.snoc (r := ⟨"5-kill_path", .pass,
        [.text "resting order opened then cancel_all cleared it"], []⟩) (by simp)
      rintro es₂ (e | (e | result)) hbuy
      · exact fun _ he => by cases he
      · rintro _ ⟨⟩
        exact reported_failed hpass rfl
      · rintro _ ⟨⟩
        cases result with
        | unfilled reason => exact reported_failed hpass rfl
        | fill f =>
            by_cases hcheap : cheap f = true
            · refine ⟨?_, fun _ => Or.inr ⟨harm, f, hbuy _ rfl, hcheap⟩⟩
              rw [List.dropLast_concat]
              exact hpass
            · exact reported_failed hpass (if_neg hcheap)
    · rw [if_neg hcleared]
      rintro _ ⟨⟩
      exact reported_failed hgreen rfl

theorem keeps_upperRungs {bk : Payload} {out : List RungResult} (hgreen : Green out)
    (hstand : Stands ex a es .funded) :
    (rungs ex a).Keeps es (upperRungs lit ex a bk out) fun es' r =>
      ∀ out', r = .ok out' → Reported lit ex a es' out' := by
  refine ⟨⟨_, hstand, .probe⟩, fun probe => keeps_lift_bind (fun result hprobe => ?_)
    fun _ _ he => by cases he⟩
  by_cases hfail : result.status = .fail
  · rw [if_pos hfail]
    rintro _ ⟨⟩
    exact reported_failed hgreen hfail
  rw [if_neg hfail]
  have hguarded := Stands.guarded hstand (refuses_of_probed hprobe hfail)
  refine ⟨⟨_, hguarded, .fees⟩, fun answer => keeps_lift_bind (fun fees hfees => ?_)
    fun _ _ he => by cases he⟩
  have hpriced : Stands ex a (_ ++ [⟨.fees, answer⟩]) .priced := .priced hguarded
  have hread : fees.status ≠ .fail := by
    unfold feesRead at hfees
    obtain ⟨b, -, hfees⟩ := bind_eq_ok.mp hfees
    split at hfees
    · obtain ⟨inner, -, hfees⟩ := bind_eq_ok.mp hfees
      obtain ⟨v, -, hfees⟩ := bind_eq_ok.mp hfees
      obtain ⟨rows, -, hfees⟩ := bind_eq_ok.mp hfees
      obtain ⟨taker, -, hfees⟩ := bind_eq_ok.mp hfees
      cases hfees
      simp
    · cases hfees
      simp
  have hboth : Green (out ++ [result] ++ [fees]) := (hgreen.snoc hfail).snoc hread
  show (rungs ex a).Keeps _ (if a.arm then _ else _) _
  cases harm : a.arm with
  | true => exact keeps_orderRungs hboth hpriced harm
  | false =>
      rintro _ ⟨⟩
      have hskip : Green (out ++ [result] ++ [fees] ++ [⟨"5-kill_path", .skip,
          [.text "not armed (read-only run)"], []⟩, ⟨"6-tiny_order", .skip,
          [.text "not armed (read-only run)"], []⟩]) := by
        rw [List.append_cons]
        exact (hboth.snoc (by simp)).snoc (by simp)
      exact ⟨fun r hmem => hskip r (List.mem_of_mem_dropLast hmem), fun _ => Or.inl ⟨harm, hpriced⟩⟩

theorem keeps_balanceRung {bk : Payload} {out : List RungResult} (hgreen : Green out)
    (hstand : Stands ex a es .listed) :
    (rungs ex a).Keeps es (balanceRung lit ex a bk out) fun es' r =>
      ∀ out', r = .ok out' → Reported lit ex a es' out' := by
  refine ⟨⟨_, hstand, .balance⟩, fun answer => keeps_lift_bind (fun ok hok => ?_)
    fun _ _ he => by cases he⟩
  cases ok with
  | true =>
      refine keeps_lift_bind (fun mxn _ => ?_) fun _ _ he => by cases he
      exact keeps_upperRungs (hgreen.snoc (by simp)) (.funded hstand (succeeds_of_answered hok))
  | false =>
      rintro _ ⟨⟩
      exact reported_failed hgreen rfl

theorem runLadder_keeps (lit : Literals) (ex : BitsoExecutor) (a : LadderArgs) :
    (rungs ex a).Keeps [] (runLadder lit ex a) fun es r =>
      ∀ out, r = .ok out → Reported lit ex a es out := by
  refine ⟨⟨_, .start, .books⟩, fun answer => keeps_lift_bind (fun found hfound => ?_)
    fun _ _ he => by cases he⟩
  cases found with
  | none =>
      have hnone : Green [] := fun _ hmem => absurd hmem List.not_mem_nil
      rintro _ ⟨⟩
      exact reported_failed hnone rfl
  | some bk =>
      have hlisted : Stands ex a ([] ++ [⟨.availableBooks, answer⟩]) .listed :=
        .listed .start (lists_of_listedBook hfound)
      refine keeps_lift_bind (fun minValue _ => ?_) fun _ _ he => by cases he
      refine keeps_lift_bind (fun minAmount _ => ?_) fun _ _ he => by cases he
      refine keeps_balanceRung ?_ hlisted
      intro r hmem
      rw [List.mem_singleton.mp hmem]
      simp

/-! ## Any run -/

theorem Stands.priced_inv (h : Stands ex a es .priced) : ∃ r₀ r₁ r₂ r₃,
    es = [⟨.availableBooks, r₀⟩, ⟨.balance, r₁⟩, ⟨.probeWithdrawal, r₂⟩, ⟨.fees, r₃⟩] ∧
      Lists a.book r₀ ∧ Succeeds r₁ ∧ Refuses r₂ := by
  cases h with
  | @priced r₃ _ hguarded =>
      cases hguarded with
      | @guarded r₂ _ hfunded hrefuses =>
          cases hfunded with
          | @funded r₁ _ hlisted hsucceeds =>
              cases hlisted with
              | @listed r₀ _ hstart hlists =>
                  cases hstart
                  exact ⟨r₀, r₁, r₂, r₃, rfl, hlists, hsucceeds, hrefuses⟩

/-- What an order or a kill may do after the first four calls. -/
inductive Acts (ex : BitsoExecutor) (a : LadderArgs) : List Exchange → Call → Prop
  | rest {body} (hlimit : body.type = "limit") : Acts ex a [] (.placeOrder body)
  | kill {body r₄ r₅} (hlimit : body.type = "limit") :
      Acts ex a [⟨.placeOrder body, r₄⟩, ⟨.openOrders a.book, r₅⟩] .cancelAll
  | buy {body r₄ r₅ r₆ r₇ oid} (hlimit : body.type = "limit") (hplaced : Placed r₄ oid)
      (hshows : Shows oid r₅) (hgone : ¬ Shows oid r₇) :
      Acts ex a [⟨.placeOrder body, r₄⟩, ⟨.openOrders a.book, r₅⟩, ⟨.cancelAll, r₆⟩,
        ⟨.openOrders a.book, r₇⟩] (.placeOrder (tinyBuy ex a))

/-- A request that changes what the account holds or has open. -/
def Call.acting : Call → Bool
  | .placeOrder _ | .cancelAll => true
  | _ => false

theorem acts_of_stands {stage : Stage} {call : Call} (h : Stands ex a es stage)
    (hasks : stage.Asks ex a call) (hacting : call.acting = true) :
    a.arm = true ∧ ∃ before rest, es = before ++ rest ∧ Stands ex a before .priced ∧
      Acts ex a rest call := by
  cases hasks with
  | books => cases hacting
  | balance => cases hacting
  | probe => cases hacting
  | fees => cases hacting
  | rest harm hlimit => exact ⟨harm, es, [], (List.append_nil es).symm, h, .rest hlimit⟩
  | look => cases hacting
  | @kill _ r₅ =>
      cases h with
      | looked hresting =>
          cases hresting with
          | @resting r₄ before _ body hpriced harm hlimit hplaced =>
              refine ⟨harm, before, [⟨.placeOrder body, r₄⟩, ⟨.openOrders a.book, r₅⟩], ?_, hpriced,
                .kill hlimit⟩
              rw [List.append_assoc]
              rfl
  | lookAgain => cases hacting
  | buy =>
      cases h with
      | @cleared r₅ r₇ _ oid hkilled hshows hgone =>
          cases hkilled with
          | @killed r₅ r₆ _ _ hlooked =>
              cases hlooked with
              | @looked r₅ _ _ hresting =>
                  cases hresting with
                  | @resting r₄ before _ body hpriced harm hlimit hplaced =>
                      refine ⟨harm, before, [⟨.placeOrder body, r₄⟩, ⟨.openOrders a.book, r₅⟩,
                        ⟨.cancelAll, r₆⟩, ⟨.openOrders a.book, r₇⟩], ?_, hpriced,
                        .buy hlimit hplaced hshows hgone⟩
                      simp only [List.append_assoc]
                      rfl
  | reconcile => cases hacting

/-- Whatever is answered, an order or a kill is sent only when the ladder is armed, after the book
was listed, the balance was read and the withdrawal was refused; and the market order only after
the limit order was seen open, a cancel-all was sent, whatever it was answered, and the next answer
did not list the order. -/
theorem ladder_order {σ : Type} (h : σ → (call : Call) → Reply call × σ) (s : σ)
    (pre post : List Exchange) (call : Call) (r : Reply call)
    (hcut : (runLadder lit ex a).calls h s = pre ++ ⟨call, r⟩ :: post)
    (hacting : call.acting = true) :
    a.arm = true ∧ ∃ r₀ r₁ r₂ r₃ rest, pre = [⟨.availableBooks, r₀⟩, ⟨.balance, r₁⟩,
        ⟨.probeWithdrawal, r₂⟩, ⟨.fees, r₃⟩] ++ rest ∧
      Lists a.book r₀ ∧ Succeeds r₁ ∧ Refuses r₂ ∧ Acts ex a rest call := by
  have hfollows := (runLadder_keeps lit ex a).follows h s
  rw [hcut] at hfollows
  obtain ⟨stage, hstands, hasks⟩ := hfollows.may
  obtain ⟨harm, before, rest, hpre, hpriced, hacts⟩ := acts_of_stands hstands hasks hacting
  obtain ⟨r₀, r₁, r₂, r₃, rfl, hlists, hsucceeds, hrefuses⟩ := hpriced.priced_inv
  exact ⟨harm, r₀, r₁, r₂, r₃, rest, hpre, hlists, hsucceeds, hrefuses, hacts⟩

/-- An exchange that answers as it should, call by call. -/
def script : List (ℕ × Payload) :=
  let text := fun s => Val.str (Str.of s)
  let object := fun (ms : List (String × Payload)) =>
    Val.dict (ms.map fun m => (.str (Str.of m.1), m.2))
  let taken := fun oid =>
    (200, object [("success", .bool true), ("payload", object [("oid", oid)])])
  [(200, object [("success", .bool true), ("payload", .list [object [("book", text "btc_mxn"),
      ("minimum_price", .float (.fin 100)), ("minimum_amount", .float (.fin 1))]])]),
    (200, object [("success", .bool true)]),
    (403, object [("error", object [("code", text "0202")])]),
    (500, object []),
    taken (text "rested"),
    (200, object [("payload", .list [object [("oid", text "rested")]])]),
    (200, object []),
    (200, object []),
    taken (text "bought"),
    (200, object [("success", .bool true), ("payload", .list [object [("major", .float (.fin 1)),
      ("price", .float (.fin 20))]])])]

def ladderScript (n : ℕ) (_ : Call) : (ℕ × Payload) × ℕ := (script.getD n (0, .dict []), n + 1)

/-- The armed run against it. -/
def scriptedCalls : List Exchange := (runLadder .none {} { arm := true }).calls ladderScript 0

/-- Its ninth call is the market order. -/
theorem scripted_buys : ∃ r₀ r₁ r₂ r₃ rest, scriptedCalls.take 8 =
      [⟨.availableBooks, r₀⟩, ⟨.balance, r₁⟩, ⟨.probeWithdrawal, r₂⟩, ⟨.fees, r₃⟩] ++ rest ∧
    Acts {} { arm := true } rest (.placeOrder (tinyBuy {} { arm := true })) := by
  have hcut : (runLadder .none {} { arm := true }).calls ladderScript 0 = scriptedCalls.take 8 ++
      ⟨.placeOrder (tinyBuy {} { arm := true }), script.getD 8 (0, .dict [])⟩ ::
        scriptedCalls.drop 9 := rfl
  obtain ⟨-, r₀, r₁, r₂, r₃, rest, hpre, -, -, -, hacts⟩ := ladder_order _ _ _ _ _ _ hcut rfl
  exact ⟨r₀, r₁, r₂, r₃, rest, hpre, hacts⟩

/-- Whatever is answered, a report has a failure nowhere but at its end; and one without a failure
is that of a read-only run that climbed to the fees, or of one that bought, was filled, and paid no
more than the gate allows. -/
theorem ladder_report {σ : Type} (h : σ → (call : Call) → Reply call × σ) (s : σ)
    (out : List RungResult) (hout : ((runLadder lit ex a).eval h s).1 = .ok out) :
    Reported lit ex a ((runLadder lit ex a).calls h s) out := by
  have hq := (runLadder_keeps lit ex a).history h s
  exact hq out hout

def scriptedReport : List RungResult :=
  ((runLadder .none {} { arm := true }).eval ladderScript 0).1.toOption.getD []

/-- The ladderScript run is green, so it bought, and at no more than the gate allows. -/
theorem scripted_green :
    ∃ f, Bought .none {} { arm := true } scriptedCalls (.fill f) ∧ cheap f = true := by
  have hsome : ((runLadder .none {} { arm := true }).eval ladderScript 0).1.toBool = true := by
    decide +kernel
  have hgreen : ∀ r ∈ scriptedReport, r.status ≠ .fail := by decide +kernel
  obtain ⟨out, hout⟩ := exists_of_toBool hsome
  rw [scriptedReport, hout] at hgreen
  rcases (ladder_report _ _ _ hout).green hgreen with ⟨harm, -⟩ | ⟨-, hbought⟩
  · cases harm
  · exact hbought

end TreasuryForge.Orders.Bitso

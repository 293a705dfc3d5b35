/-
# `Orders.Blotter` — recovery on an executor that may raise

The manager of `orders.py` with its journal, on a two-phase executor of which nothing is
known: each phase answers or raises as it likes.  A blotter runs the programs of
`Orders.Manager` to their end; `answers` is the history of its reconcile calls, which no
function reads.

A reconcile that raises ends the loop of `recover`, so the orders behind it are not looked
at; `recover_covers_iff` says when none is left behind.
-/
import TreasuryForge.Orders.Manager

namespace TreasuryForge.Orders

open Resume

/-- `place_order` and `reconcile`, with the executor's own state. -/
structure TwoPhaseExecutor (X : Type) where
  placeOrder : X → Intent → String → Except Raised OrderHandle × X
  reconcile : X → OrderHandle → String → Except Raised ReconcileResult × X

/-- A reconcile call: what it asked about, and the answer. -/
abbrev Answered := OrderHandle × Except Raised ReconcileResult

/-- The manager's dictionary, keyed by the ids of its records; the journal's two files; and
the executor. -/
structure Blotter (X : Type) where
  executor : X
  orders : Dict String OrderRecord := Dict.empty
  ledger : List (String × RecordDict) := []
  disk : Option (Dict String RecordDict) := none
  answers : List Answered := []
  filed : ∀ p ∈ orders.items, p.2.originId = p.1

namespace Blotter

variable {X : Type} (e : TwoPhaseExecutor X)

/-- The record of an order in the checkpoint, as a restart would read it. -/
def saved (d : Blotter X) (o : String) : Option OrderRecord :=
  d.disk.bind fun dict => (dict.get? o).bind OrderRecord.ofDict

def store (d : Blotter X) (r : OrderRecord) : Blotter X :=
  { d with
    orders := d.orders.set r.originId r
    filed := by
      intro p hp
      rcases (Dict.mem_setRaw d.orders.nodup).mp hp with rfl | ⟨hp, _⟩
      · rfl
      · exact d.filed p hp }

def append (d : Blotter X) (event : String) (r : OrderRecord) : Blotter X :=
  { d with ledger := d.ledger ++ [(event, r.toDict)] }

/-- `json.dump(state, sort_keys=True)`, put in place atomically. -/
def checkpoint (d : Blotter X) : Blotter X :=
  { d with disk := some ((d.orders.mapVals OrderRecord.toDict).sortKeys (· ≤ ·)) }

def exec (d : Blotter X) : (op : Op) → Ret op × Blotter X
  | .get o => (d.orders.get? o, d)
  | .ids => (d.orders.keys, d)
  | .item o => (d.orders.get? o, d)
  | .store r => ((), d.store r)
  | .append event r => ((), d.append event r)
  | .checkpoint => ((), d.checkpoint)
  | .place r intent =>
      let (reply, x) := e.placeOrder d.executor intent r.originId
      (reply, { d.store r with executor := x })
  | .reconcile handle symbol =>
      let (reply, x) := e.reconcile d.executor handle symbol
      (reply, { d with executor := x, answers := d.answers ++ [(handle, reply)] })

/-- `recover`, run to its end. -/
def recovered (symbolOf : Dict String String) (d : Blotter X) :
    Except Raised (List Outcome) × Blotter X :=
  (recover symbolOf).eval (exec e) d

/-! ## What recovery owes -/

/-- The orders whose fate is open, in the order of the dictionary. -/
def inDoubt (d : Blotter X) : List OrderRecord := d.orders.values.filter fun r => !r.state.terminal

/-- A fill that a reconcile answered is in its order's record, in memory and on disk. -/
def FilledKept (d : Blotter X) : Prop :=
  ∀ h f, (h, .ok (.fill f)) ∈ d.answers → ∃ r, d.orders.get? h.originId = some r ∧
    r.state = .filled ∧ r.fill = some (asdict f) ∧ d.saved h.originId = some r

/-- Every order in doubt was asked about, and each answer that was a fill left its order
FILLED, in memory and on disk. -/
structure Covered (d d' : Blotter X) : Prop where
  asked : ∀ r ∈ d.inDoubt, ∃ reply, (r.handle, reply) ∈ d'.answers
  filled : d'.FilledKept

/-- An order's turn comes to its end: the reconcile answers, and a fill that an unfilled
order holds can be read back. -/
def endsTurn (r : OrderRecord) : Except Raised ReconcileResult → Bool
  | .error _ => false
  | .ok (.fill _) => true
  | .ok (.unfilled _) => r.fill.all fun d => d.toFill.isSome

/-- The symbol an order is reconciled under. -/
def symbolFor (symbolOf : Dict String String) (r : OrderRecord) : String :=
  if r.symbol = "" then symbolOf.getD r.originId "" else r.symbol

/-- Each of these orders but the last comes to the end of its turn. -/
def AllButLastEnd (symbolOf : Dict String String) : X → List OrderRecord → Prop
  | _, [] => True
  | x, r :: rs =>
      rs = [] ∨
        (endsTurn r (e.reconcile x r.handle (symbolFor symbolOf r)).1 = true ∧
          AllButLastEnd symbolOf (e.reconcile x r.handle (symbolFor symbolOf r)).2 rs)

/-! ## One order's turn -/

variable {e} {d : Blotter X} {r : OrderRecord} {o : String} {symbolOf : Dict String String}

/-- A record is written: in memory, in the ledger, and in the checkpoint. -/
def persisted (d : Blotter X) (r : OrderRecord) (event : String) : Blotter X :=
  ((d.store r).append event r).checkpoint

theorem eval_setState (d : Blotter X) (r : OrderRecord) (state : OrderState) (reason : String) :
    (setState r state reason).eval (exec e) d =
      (.ok { r with state := state, reason := reason },
        d.persisted { r with state := state, reason := reason } state.value) :=
  rfl

theorem saved_persisted (event : String) :
    (d.persisted r event).saved o = (d.persisted r event).orders.get? o := by
  change ((((d.orders.set r.originId r).mapVals OrderRecord.toDict).sortKeys _).get? o).bind
    OrderRecord.ofDict = (d.orders.set r.originId r).get? o
  rw [Dict.get?_sortKeys, Dict.get?_mapVals]
  cases (d.orders.set r.originId r).get? o with
  | none => rfl
  | some r' => exact OrderRecord.ofDict_toDict r'

/-- A reconcile was answered. -/
def asked (d : Blotter X) (h : OrderHandle) (reply : Except Raised ReconcileResult) (x : X) :
    Blotter X :=
  { d with executor := x, answers := d.answers ++ [(h, reply)] }

theorem eval_get {α : Type} (k : Ret (.get o) → M α) :
    Prog.eval (exec e) (ask (.get o) >>= k) d = (k (d.orders.get? o)).eval (exec e) d :=
  rfl

theorem eval_place {α : Type} (intent : Intent) (k : Ret (.place r intent) → M α) :
    Prog.eval (exec e) (ask (.place r intent) >>= k) d =
      (k (e.placeOrder d.executor intent r.originId).1).eval (exec e)
        { d.store r with executor := (e.placeOrder d.executor intent r.originId).2 } :=
  rfl

theorem eval_item {α : Type} (k : Ret (.item o) → M α) :
    Prog.eval (exec e) (ask (.item o) >>= k) d = (k (d.orders.get? o)).eval (exec e) d :=
  rfl

theorem eval_reconcile {α : Type} (h : OrderHandle) (symbol : String)
    (k : Ret (.reconcile h symbol) → M α) :
    Prog.eval (exec e) (ask (.reconcile h symbol) >>= k) d =
      (k (e.reconcile d.executor h symbol).1).eval (exec e)
        (d.asked h (e.reconcile d.executor h symbol).1 (e.reconcile d.executor h symbol).2) :=
  rfl

theorem originId_of_get (hr : d.orders.get? o = some r) : r.originId = o :=
  d.filed (o, r) (Dict.get?_eq_some.mp hr)

/-- An order's outcome is told without a call; a fill that cannot be read back raises. -/
theorem eval_told (d : Blotter X) (r : OrderRecord) : ∃ result,
    (outcome r >>= fun told => pure (some told) : M (Option Outcome)).eval (exec e) d =
      (result, d) ∧ (result.isOk = true ↔ (r.fill.all fun d => d.toFill.isSome) = true) := by
  unfold outcome
  cases r.fill with
  | none => exact ⟨_, rfl, by simp [Except.isOk, Except.toBool]⟩
  | some f =>
      dsimp only
      cases hf : f.toFill with
      | none => exact ⟨_, rfl, by simp [Except.isOk, Except.toBool, hf]⟩
      | some fill => exact ⟨_, rfl, by simp [Except.isOk, Except.toBool, hf]⟩

theorem eval_tryFill (d : Blotter X) (r : OrderRecord) (symbol : String) :
    let q := e.reconcile d.executor r.handle (if symbol = "" then r.symbol else symbol)
    let d₁ := d.asked r.handle q.1 q.2
    (tryFill r symbol).eval (exec e) d =
      match q.1 with
      | .error err => (.error err, d₁)
      | .ok (.unfilled _) => (.ok (false, r), d₁)
      | .ok (.fill f) =>
          let r' := { r with fill := some (asdict f), state := .filled, reason := "" }
          (.ok (true, r'), d₁.persisted r' OrderState.filled.value) := by
  intro q d₁
  unfold tryFill
  rw [eval_reconcile]
  change Prog.eval _ _ d₁ = _
  rcases q.1 with err | ⟨f⟩ | ⟨reason⟩
  · rfl
  · rfl
  · rfl

/-- What the turn of one order does. -/
structure Turn (e : TwoPhaseExecutor X) (symbolOf : Dict String String) (r : OrderRecord)
    (d d' : Blotter X) : Prop where
  executor : d'.executor = (e.reconcile d.executor r.handle (symbolFor symbolOf r)).2
  answers : d'.answers =
    d.answers ++ [(r.handle, (e.reconcile d.executor r.handle (symbolFor symbolOf r)).1)]
  others : ∀ o, o ≠ r.originId → d'.orders.get? o = d.orders.get? o
  saved : (d'.orders = d.orders ∧ d'.disk = d.disk) ∨ ∀ o, d'.saved o = d'.orders.get? o
  filled : ∀ f, (e.reconcile d.executor r.handle (symbolFor symbolOf r)).1 = .ok (.fill f) →
    (∀ o, d'.saved o = d'.orders.get? o) ∧
    ∃ r', d'.orders.get? r.originId = some r' ∧ r'.state = .filled ∧ r'.fill = some (asdict f)

theorem recoverOne_terminal (hr : d.orders.get? o = some r) (ht : r.state.terminal = true) :
    (recoverOne symbolOf o).eval (exec e) d = (.ok none, d) := by
  unfold recoverOne
  rw [eval_item, hr]
  dsimp only
  rw [if_pos ht]
  rfl

theorem recoverOne_turn (e : TwoPhaseExecutor X) (symbolOf : Dict String String)
    (hr : d.orders.get? o = some r) (ht : r.state.terminal = false) :
    ∃ result d', (recoverOne symbolOf o).eval (exec e) d = (result, d') ∧
      (result.isOk = true ↔
        endsTurn r (e.reconcile d.executor r.handle (symbolFor symbolOf r)).1 = true) ∧
      Turn e symbolOf r d d' := by
  have ho := originId_of_get hr
  have hsymbol : (if (if r.symbol = "" then symbolOf.getD o "" else r.symbol) = "" then r.symbol
      else if r.symbol = "" then symbolOf.getD o "" else r.symbol) = symbolFor symbolOf r := by
    unfold symbolFor
    rw [ho]
    by_cases hs : r.symbol = ""
    · rw [if_pos hs]
      split
      · next hnone => rw [hs, hnone]
      · rfl
    · rw [if_neg hs, if_neg hs]
  have htry := eval_tryFill (e := e) d r (if r.symbol = "" then symbolOf.getD o "" else r.symbol)
  rw [hsymbol] at htry
  unfold recoverOne
  rw [eval_item, hr]
  dsimp only
  rw [if_neg (by simp [ht]), Prog.eval_bind, htry]
  rcases hq : e.reconcile d.executor r.handle (symbolFor symbolOf r) with ⟨err | ⟨f⟩ | ⟨reason⟩, x⟩
  · -- the reconcile raises
    refine ⟨_, _, rfl, by simp [endsTurn, Except.isOk, Except.toBool], ?_⟩
    exact ⟨by rw [hq]; rfl, by rw [hq]; rfl, fun _ _ => rfl, Or.inl ⟨rfl, rfl⟩, fun f hf => by
      rw [hq] at hf; cases hf⟩
  · -- a fill
    dsimp only
    rw [if_neg (by simp)]
    obtain ⟨result, htold, hok⟩ := eval_told (e := e)
      ((d.asked r.handle (.ok (.fill f)) x).persisted
        { r with fill := some (asdict f), state := .filled, reason := "" } OrderState.filled.value)
      { r with fill := some (asdict f), state := .filled, reason := "" }
    refine ⟨result, _, htold, ?_, ?_⟩
    · rw [hok]
      simp [endsTurn]
    · refine ⟨by rw [hq]; rfl, by rw [hq]; rfl, fun o' ho' => Dict.get?_set_of_ne _ _ ho',
        Or.inr fun _ => saved_persisted _, ?_⟩
      intro f' hf'
      rw [hq] at hf'
      cases hf'
      exact ⟨fun _ => saved_persisted _, _, Dict.get?_set_self _ _ _, rfl, rfl⟩
  · -- no fill
    dsimp only
    have hnofill : ∀ f, (e.reconcile d.executor r.handle (symbolFor symbolOf r)).1 ≠
        .ok (.fill f) := by
      intro f hf
      rw [hq] at hf
      cases hf
    by_cases hoid : r.oid.isSome = true
    · rw [if_pos ⟨rfl, hoid⟩, Prog.eval_bind, eval_setState]
      obtain ⟨result, htold, hok⟩ := eval_told (e := e)
        ((d.asked r.handle (.ok (.unfilled reason)) x).persisted
          { r with state := .open, reason := "resting (recovered)" } OrderState.open.value)
        { r with state := .open, reason := "resting (recovered)" }
      refine ⟨result, _, htold, hok, ?_⟩
      exact ⟨by rw [hq]; rfl, by rw [hq]; rfl, fun o' ho' => Dict.get?_set_of_ne _ _ ho',
        Or.inr fun _ => saved_persisted _, fun f hf => absurd hf (hnofill f)⟩
    · rw [if_neg fun h => hoid h.2]
      obtain ⟨result, htold, hok⟩ :=
        eval_told (e := e) (d.asked r.handle (.ok (.unfilled reason)) x) r
      refine ⟨result, _, htold, hok, ?_⟩
      exact ⟨by rw [hq]; rfl, by rw [hq]; rfl, fun _ _ => rfl, Or.inl ⟨rfl, rfl⟩,
        fun f hf => absurd hf (hnofill f)⟩

/-! ## The loop -/

/-- An order in doubt is not one that was filled before, so its turn leaves those alone. -/
theorem Turn.filledKept {d d' : Blotter X} (h : Turn e symbolOf r d d')
    (hr : d.orders.get? r.originId = some r) (ht : r.state.terminal = false)
    (hd : d.FilledKept) : d'.FilledKept := by
  intro handle f hmem
  rw [h.answers, List.mem_append, List.mem_singleton] at hmem
  rcases hmem with hold | hnew
  · obtain ⟨r₁, hget, hstate, hfill, hsaved⟩ := hd handle f hold
    have hne : handle.originId ≠ r.originId := by
      intro heq
      rw [heq, hr] at hget
      cases hget
      rw [hstate] at ht
      cases ht
    refine ⟨r₁, (h.others _ hne).trans hget, hstate, hfill, ?_⟩
    rcases h.saved with ⟨_, hdisk⟩ | hall
    · unfold Blotter.saved
      rw [hdisk]
      exact hsaved
    · rw [hall, h.others _ hne, hget]
  · obtain ⟨rfl, hreply⟩ := Prod.mk.inj hnew
    obtain ⟨hall, r', hget, hstate, hfill⟩ := h.filled f hreply.symm
    exact ⟨r', hget, hstate, hfill, (hall _).trans hget⟩

theorem eval_bind_pure {α β : Type} (p : M α) (f : α → β) (d : Blotter X) :
    ((p >>= fun a => pure (f a)).eval (exec e) d).2 = (p.eval (exec e) d).2 := by
  rw [Prog.eval_bind]
  rcases p.eval (exec e) d with ⟨err | a, d'⟩
  · rfl
  · rfl

/-- The orders of a list of entries that are in doubt. -/
def openOf (l : List (String × OrderRecord)) : List OrderRecord :=
  (l.map Prod.snd).filter fun r => !r.state.terminal

/-- The loop over the entries from some point on: it asks about the orders in doubt in
turn, and about all of them exactly when each but the last comes to the end of its turn. -/
theorem recoverAll_asks (e : TwoPhaseExecutor X) (symbolOf : Dict String String) :
    ∀ (l : List (String × OrderRecord)) (d : Blotter X),
    (∀ p ∈ l, d.orders.get? p.1 = some p.2) → (l.map Prod.fst).Nodup → d.FilledKept →
    ∃ new : List Answered, ((recoverAll symbolOf (l.map Prod.fst)).eval (exec e) d).2.answers =
        d.answers ++ new ∧
      new.map Prod.fst <+: (openOf l).map OrderRecord.handle ∧
      (new.length = (openOf l).length ↔ AllButLastEnd e symbolOf d.executor (openOf l)) ∧
      ((recoverAll symbolOf (l.map Prod.fst)).eval (exec e) d).2.FilledKept := by
  intro l
  induction l with
  | nil =>
      intro d _ _ hd
      exact ⟨[], (List.append_nil _).symm, List.nil_prefix, ⟨fun _ => trivial, fun _ => rfl⟩, hd⟩
  | cons p l ih =>
      intro d hget hnodup hd
      obtain ⟨o, r⟩ := p
      have hr := hget (o, r) List.mem_cons_self
      have hrest : ∀ q ∈ l, d.orders.get? q.1 = some q.2 :=
        fun q hq => hget q (List.mem_cons_of_mem _ hq)
      rw [List.map_cons, List.nodup_cons] at hnodup
      rw [List.map_cons, recoverAll, Prog.eval_bind]
      cases ht : r.state.terminal with
      | true =>
          have hopen : openOf ((o, r) :: l) = openOf l := by
            simp [openOf, ht]
          rw [recoverOne_terminal hr ht, hopen]
          dsimp only
          rw [eval_bind_pure]
          exact ih d hrest hnodup.2 hd
      | false =>
          have hopen : openOf ((o, r) :: l) = r :: openOf l := by
            simp [openOf, ht]
          obtain ⟨result, d₁, hone, hends, hturn⟩ :=
            recoverOne_turn e symbolOf hr ht
          have ho := originId_of_get hr
          have hd₁ := hturn.filledKept (by rw [ho]; exact hr) ht hd
          rw [hone, hopen]
          cases result with
          | error err =>
              -- the loop ends here
              have hno : ¬ endsTurn r (e.reconcile d.executor r.handle (symbolFor symbolOf r)).1 =
                  true := fun h => absurd (hends.mpr h) (by simp [Except.isOk, Except.toBool])
              refine ⟨[(r.handle, (e.reconcile d.executor r.handle (symbolFor symbolOf r)).1)],
                hturn.answers, ?_, ?_, hd₁⟩
              · exact ⟨(openOf l).map OrderRecord.handle, rfl⟩
              · rw [AllButLastEnd]
                constructor
                · intro hlen
                  rw [List.length_singleton, List.length_cons] at hlen
                  exact Or.inl (List.length_eq_zero_iff.mp (by omega))
                · rintro (hnil | ⟨hyes, _⟩)
                  · rw [hnil]
                    rfl
                  · exact absurd hyes hno
          | ok told =>
              have hyes := hends.mp rfl
              have hrest₁ : ∀ q ∈ l, d₁.orders.get? q.1 = some q.2 := by
                intro q hq
                have hne : q.1 ≠ r.originId := by
                  rw [ho]
                  intro heq
                  exact hnodup.1 (heq ▸ List.mem_map_of_mem hq)
                rw [hturn.others _ hne]
                exact hrest q hq
              obtain ⟨new, hanswers, hprefix, hlen, hkept⟩ := ih d₁ hrest₁ hnodup.2 hd₁
              dsimp only
              rw [eval_bind_pure]
              refine ⟨(r.handle, (e.reconcile d.executor r.handle (symbolFor symbolOf r)).1) :: new,
                ?_, ?_, ?_, hkept⟩
              · rw [hanswers, hturn.answers, List.append_assoc]
                rfl
              · exact List.cons_prefix_cons.mpr ⟨rfl, hprefix⟩
              · rw [List.length_cons, List.length_cons, Nat.add_right_cancel_iff, hlen,
                  AllButLastEnd, hturn.executor]
                constructor
                · exact fun h => Or.inr ⟨hyes, h⟩
                · rintro (hnil | ⟨_, h⟩)
                  · rw [hnil]
                    trivial
                  · exact h

/-- No two orders have the same handle: they are filed under their ids. -/
theorem nodup_handles (d : Blotter X) : (d.inDoubt.map OrderRecord.handle).Nodup := by
  have hids : (d.orders.values.map OrderRecord.originId).Nodup := by
    have heq : d.orders.values.map OrderRecord.originId = d.orders.keys := by
      unfold Dict.values Dict.keys
      rw [List.map_map]
      exact List.map_congr_left d.filed
    rw [heq]
    exact d.orders.nodup
  have hsub : (d.inDoubt.map OrderRecord.originId).Nodup :=
    hids.sublist (List.filter_sublist.map _)
  refine List.Nodup.of_map OrderHandle.originId ?_
  rw [List.map_map]
  exact hsub

/-- From a blotter that has asked about nothing yet, recovery covers every order in doubt
exactly when each of them but the last comes to the end of its turn. -/
theorem recover_covers_iff (e : TwoPhaseExecutor X) (symbolOf : Dict String String) (d : Blotter X)
    (hstart : d.answers = []) :
    Covered d (recovered e symbolOf d).2 ↔ AllButLastEnd e symbolOf d.executor d.inDoubt := by
  have hitems : ∀ p ∈ d.orders.items, d.orders.get? p.1 = some p.2 :=
    fun p hp => Dict.get?_eq_some.mpr hp
  have hkept : d.FilledKept := by
    intro h f hmem
    rw [hstart] at hmem
    cases hmem
  obtain ⟨new, hanswers, hprefix, hlen, hfilled⟩ :=
    recoverAll_asks e symbolOf d.orders.items d hitems d.orders.nodup hkept
  rw [hstart, List.nil_append] at hanswers
  have hdoubt : openOf d.orders.items = d.inDoubt := rfl
  rw [hdoubt] at hprefix hlen
  change Covered d ((recoverAll symbolOf (d.orders.items.map Prod.fst)).eval (exec e) d).2 ↔ _
  rw [← hlen]
  constructor
  · intro hcovered
    have hsub : d.inDoubt.map OrderRecord.handle ⊆ new.map Prod.fst := by
      intro h hh
      obtain ⟨r, hr, rfl⟩ := List.mem_map.mp hh
      obtain ⟨reply, hreply⟩ := hcovered.asked r hr
      rw [hanswers] at hreply
      exact List.mem_map_of_mem hreply
    have hge := (List.subperm_of_subset (nodup_handles d) hsub).length_le
    have hle := hprefix.length_le
    rw [List.length_map, List.length_map] at hge hle
    omega
  · intro hall
    refine ⟨?_, hfilled⟩
    have heq := hprefix.eq_of_length (by rw [List.length_map, List.length_map, hall])
    intro r hr
    have hmem := List.mem_map_of_mem (f := OrderRecord.handle) hr
    rw [← heq] at hmem
    obtain ⟨⟨h, reply⟩, hin, rfl⟩ := List.mem_map.mp hmem
    rw [hanswers]
    exact ⟨reply, hin⟩

/-! ## Two orders, the first of them unknown to the exchange -/

/-- Bitso answers 404 for the id of the first order, and has a fill for any other. -/
def firstUnknown : TwoPhaseExecutor Unit where
  placeOrder x _ _ := (.error (.other "no order is placed"), x)
  reconcile x handle symbol :=
    if handle.originId = "s:BTC:1" then
      (.error (.bitso ⟨.nonRetryable, "0404", "not found", 404⟩), x)
    else
      (.ok (.fill ⟨symbol, handle.side, 1, 100, 0, 7, "base"⟩), x)

/-- Two orders that were submitted and not reconciled. -/
def twoSubmitted (first second : String) (h : ¬ second = first) : Blotter Unit where
  executor := ()
  orders := ⟨[(first, { originId := first, state := .submitted, symbol := "BTC" }),
      (second, { originId := second, state := .submitted, symbol := "BTC" })],
    by simpa using Ne.symm h⟩
  filed := by
    intro p hp
    rcases List.mem_pair.mp hp with rfl | rfl <;> rfl

theorem recover_covers_iff_two :
    Covered (twoSubmitted "s:BTC:2" "s:BTC:3" (by decide))
        (recovered firstUnknown Dict.empty (twoSubmitted "s:BTC:2" "s:BTC:3" (by decide))).2 ↔
      AllButLastEnd firstUnknown Dict.empty ()
        (twoSubmitted "s:BTC:2" "s:BTC:3" (by decide)).inDoubt :=
  recover_covers_iff firstUnknown Dict.empty (twoSubmitted "s:BTC:2" "s:BTC:3" (by decide)) rfl

/-- The error about the first order hides the fill of the second. -/
theorem error_hides_fill :
    (firstUnknown.reconcile () ⟨"s:BTC:2", none, "", .buy⟩ "BTC").1 =
        .ok (.fill ⟨"BTC", .buy, 1, 100, 0, 7, "base"⟩) ∧
      ¬ Covered (twoSubmitted "s:BTC:1" "s:BTC:2" (by decide))
        (recovered firstUnknown Dict.empty (twoSubmitted "s:BTC:1" "s:BTC:2" (by decide))).2 := by
  refine ⟨rfl, ?_⟩
  intro h
  have hanswers : (recovered firstUnknown Dict.empty
      (twoSubmitted "s:BTC:1" "s:BTC:2" (by decide))).2.answers.map Prod.fst =
      [⟨"s:BTC:1", none, "", .buy⟩] := by
    decide
  obtain ⟨reply, hreply⟩ := h.asked
    { originId := "s:BTC:2", state := .submitted, symbol := "BTC" } (by decide)
  have hmem : (⟨"s:BTC:2", none, "", .buy⟩ : OrderHandle) ∈ (recovered firstUnknown Dict.empty
      (twoSubmitted "s:BTC:1" "s:BTC:2" (by decide))).2.answers.map Prod.fst :=
    List.mem_map_of_mem hreply
  rw [hanswers] at hmem
  exact absurd hmem (by decide)

end Blotter

end TreasuryForge.Orders

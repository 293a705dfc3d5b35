/-
# `Orders.Attribution` — whose order a record is

The manager files an order under its `origin_id`, with a symbol and a side, and keeps
no intent.  Here the intents are kept beside it: `approved` is the list of intents that
were handed to `submit`, each under its id, and `posts` follows the POSTs with theirs.
`Attributed` says that every record, on disk or in memory, has the symbol and the side
of an intent approved under its id, that a fill in it is made of trades of orders with
that id, and that nothing was POSTed or landed but approved intents.

`submit_wp` and `recover_wp` say that `submit` of an approved intent, with the intent's
own symbol, and `recover` keep this.  They are read off the programs with `Prog.wp_bind`,
a lemma a function, against a `Desk`: any way in which the world of `Orders.World` may
answer the calls.
-/
import TreasuryForge.Orders.Growth

namespace TreasuryForge.Orders

open Resume

/-! ## The desk -/

/-- What answers the manager's calls: whatever it is, its memory, journal and exchange
make a world, in which the exchange may have moved before each call. -/
structure Desk (v : Venue) (σ : Type) where
  rail : σ → (op : Op) → Ret op × σ
  reboot : σ → Option σ
  world : σ → World
  answers : ∀ s op, ∃ es a,
    ((world s).drift es).exec v op a = some ((rail s op).1, world (rail s op).2)
  reboots : ∀ s, (world s).reboot = (reboot s).map world

/-- Intents, each under an origin id. -/
abbrev Intents := List (String × Intent)

/-- The POSTs, as the state of a protocol that allows every call. -/
def posts : Protocol Op Ret Intents where
  allowed _ _ := True
  next sent
    | .place r intent, _ => sent ++ [(r.originId, intent)]
    | _, _ => sent

/-! ## Whose order a record is -/

/-- The record is of an order for this intent. -/
structure OrderRecord.For (v : Venue) (x : Exchange) (r : OrderRecord) (i : Intent) : Prop where
  symbol : r.symbol = i.symbol
  -- Hyperliquid's fill has the book in place of an empty symbol
  named : i.symbol = "" → v = .bitso
  side : r.side = if i.side = .buy then "buy" else "sell"
  oid : ∀ oid, r.oid = some oid → x.Names oid r.originId
  fill : ∀ d, r.fill = some d →
    d.symbol = i.symbol ∧ d.side = i.side.value ∧ x.Executes r.originId d
  filled : r.state = .filled → r.fill.isSome = true

/-- The record is filed under this id, and is of an order for an intent approved
under it. -/
def OrderRecord.Filed (v : Venue) (approved : Intents) (x : Exchange) (o : String)
    (r : OrderRecord) : Prop :=
  r.originId = o ∧ ∃ i, (o, i) ∈ approved ∧ r.For v x i

/-- Every record, every POST and every order on the exchange is of an approved intent. -/
structure Attributed (v : Venue) (approved : Intents) (w : World) (sent : Intents) : Prop where
  memory : ∀ o r, w.orders.get? o = some r → r.Filed v approved w.exch o
  disk : ∀ o r, w.saved o = some r → r.Filed v approved w.exch o
  posted : ∀ p ∈ sent, p ∈ approved
  landed : ∀ r ∈ w.exch.orders, ∃ i, (r.originId, i) ∈ sent

variable {v : Venue} {approved approved' sent : Intents} {w w' : World} {x x' : Exchange}
  {r : OrderRecord} {i : Intent} {o : String}

namespace OrderRecord

theorem For.later (h : r.For v x i) (hg : x.Grows x') : r.For v x' i where
  symbol := h.symbol
  named := h.named
  side := h.side
  oid oid he := (h.oid oid he).later hg
  fill d hd := ⟨(h.fill d hd).1, (h.fill d hd).2.1, (h.fill d hd).2.2.later hg⟩
  filled := h.filled

/-- Another state, attempt or order id of the same order. -/
theorem For.revise {r' : OrderRecord} (h : r.For v x i) (ho : r'.originId = r.originId)
    (hsymbol : r'.symbol = r.symbol) (hside : r'.side = r.side) (hfill : r'.fill = r.fill)
    (hstate : r'.state = .filled → r.state = .filled)
    (hoid : ∀ oid, r'.oid = some oid → x.Names oid r.originId) : r'.For v x i where
  symbol := hsymbol.trans h.symbol
  named := h.named
  side := hside.trans h.side
  oid oid he := ho ▸ hoid oid he
  fill d hd := ho ▸ h.fill d (hfill ▸ hd)
  filled he := hfill ▸ h.filled (hstate he)

theorem Filed.later (h : r.Filed v approved x o) (hg : x.Grows x') : r.Filed v approved x' o := by
  obtain ⟨ho, i, hi, hfor⟩ := h
  exact ⟨ho, i, hi, hfor.later hg⟩

theorem Filed.mono (h : r.Filed v approved x o) (ha : approved ⊆ approved') :
    r.Filed v approved' x o := by
  obtain ⟨ho, i, hi, hfor⟩ := h
  exact ⟨ho, i, ha hi, hfor⟩

theorem For.handle_side (h : r.For v x i) : r.handle.side = i.side := by
  show (if r.side = "buy" then Side.buy else Side.sell) = i.side
  rw [h.side]
  cases i.side <;> decide

end OrderRecord

/-- A fill whose side is a side's value is read back. -/
theorem FillDict.toFill_of_side {fd : FillDict} {side : Side} (h : fd.side = side.value) :
    ∃ f, fd.toFill = some f ∧ asdict f = fd ∧ f.side = side := by
  refine ⟨⟨fd.symbol, side, fd.baseAmount, fd.price, fd.fee, fd.ts, fd.feeCurrency⟩, ?_, ?_, rfl⟩
  · rw [toFill, h, Side.ofValue_value]
    rfl
  · rw [asdict, ← h]

theorem attributed_fresh : Attributed v [] {} [] where
  memory _ _ h := nomatch h
  disk _ _ h := nomatch h
  posted _ h := absurd h List.not_mem_nil
  landed _ h := absurd h List.not_mem_nil

theorem Attributed.mono (h : Attributed v approved w sent) (ha : approved ⊆ approved') :
    Attributed v approved' w sent where
  memory o r hr := (h.memory o r hr).mono ha
  disk o r hr := (h.disk o r hr).mono ha
  posted p hp := ha (h.posted p hp)
  landed := h.landed

/-- What is left of the records when the exchange has only grown, and landed nothing
that was not sent. -/
theorem Attributed.grow (h : Attributed v approved w sent) (hg : w.exch.Grows w'.exch)
    (horders : w'.orders = w.orders) (hsaved : ∀ o, w'.saved o = w.saved o)
    (hlanded : ∀ r ∈ w'.exch.orders, ∃ i, (r.originId, i) ∈ sent) :
    Attributed v approved w' sent where
  memory o r hr := (h.memory o r (horders ▸ hr)).later hg
  disk o r hr := (h.disk o r (hsaved o ▸ hr)).later hg
  posted := h.posted
  landed := hlanded

theorem Attributed.env (h : Attributed v approved w sent) (e : Env) :
    Attributed v approved (w.env e) sent := by
  refine h.grow (World.grows_env e) (World.orders_env e) (fun _ => World.saved_env e) ?_
  rw [World.exch_env]
  intro r hr
  obtain ⟨r₀, hr₀, rfl⟩ := List.mem_map.mp hr
  obtain ⟨i, hi⟩ := h.landed r₀ hr₀
  refine ⟨i, ?_⟩
  split
  · rwa [Env.act_originId]
  · exact hi

theorem Attributed.drift (h : Attributed v approved w sent) : ∀ es : List Env,
    Attributed v approved (w.drift es) sent := by
  intro es
  induction es generalizing w with
  | nil => exact h
  | cons e es ih => exact ih (h.env e)

theorem Attributed.reboot (h : Attributed v approved w sent) (hw : w.reboot = some w') :
    Attributed v approved w' sent := by
  obtain ⟨hget, hsaved, hexch, _⟩ := World.reboot_eq_some hw
  constructor
  · intro o r hr
    rw [hget] at hr
    rw [hexch]
    exact h.disk o r hr
  · intro o r hr
    rw [hsaved] at hr
    rw [hexch]
    exact h.disk o r hr
  · exact h.posted
  · rw [hexch]
    exact h.landed

/-! ## One call -/

/-- A record may be written, and an intent POSTed, only for an approved intent. -/
def Fair (v : Venue) (approved : Intents) (x : Exchange) : Op → Prop
  | .store r => r.Filed v approved x r.originId
  | .place r intent => (r.originId, intent) ∈ approved ∧ r.For v x intent
  | _ => True

theorem Fair.later {op : Op} (h : Fair v approved x op) (hg : x.Grows x') :
    Fair v approved x' op := by
  cases op with
  | store r => exact OrderRecord.Filed.later h hg
  | place r intent => exact ⟨h.1, h.2.later hg⟩
  | _ => trivial

theorem Attributed.store (h : Attributed v approved w sent)
    (hr : r.Filed v approved w.exch r.originId) : Attributed v approved (w.store r) sent where
  memory o r' hg := by
    have hg' : (w.orders.set r.originId r).get? o = some r' := hg
    rw [Dict.get?_set] at hg'
    split at hg'
    · next ho =>
        cases hg'
        rw [ho]
        exact hr
    · exact h.memory o r' hg'
  disk := h.disk
  posted := h.posted
  landed := h.landed

/-- A POST of an approved intent, whatever the exchange made of it. -/
theorem Attributed.place (h : Attributed v approved w sent) (hi : (r.originId, i) ∈ approved)
    (hr : r.For v w.exch i) (hg : w.exch.Grows x)
    (hx : ∀ ord ∈ x.orders, ord ∈ w.exch.orders ∨ ord.originId = r.originId) :
    Attributed v approved (w.posted r x) (sent ++ [(r.originId, i)]) := by
  have hstore := h.store ⟨rfl, i, hi, hr⟩
  constructor
  · exact fun o r' hr' => (hstore.memory o r' hr').later hg
  · exact fun o r' hr' => (hstore.disk o r' hr').later hg
  · intro p hp
    rcases List.mem_append.mp hp with hp | hp
    · exact h.posted p hp
    · rw [List.mem_singleton.mp hp]
      exact hi
  · intro ord hord
    rcases hx ord hord with hold | horigin
    · obtain ⟨j, hj⟩ := h.landed ord hold
      exact ⟨j, List.mem_append_left _ hj⟩
    · exact ⟨i, List.mem_append_right _ (List.mem_singleton.mpr (by rw [horigin]))⟩

theorem Attributed.exec {op : Op} {y : Ret op} {a : Answer} (h : Attributed v approved w sent)
    (hop : Fair v approved w.exch op) (hx : w.exec v op a = some (y, w')) :
    Attributed v approved w' (posts.next sent op y) := by
  cases op with
  | get o => rw [(World.exec_get hx).2]; exact h
  | item o => rw [(World.exec_item hx).2]; exact h
  | ids => rw [World.exec_ids hx]; exact h
  | store r => rw [World.exec_store hx]; exact h.store hop
  | append event r =>
      rw [World.exec_append hx]
      exact ⟨h.memory, h.disk, h.posted, h.landed⟩
  | checkpoint =>
      rw [World.exec_checkpoint hx]
      exact ⟨h.memory, fun o r hr => h.memory o r (World.saved_checkpoint (w := w) ▸ hr),
        h.posted, h.landed⟩
  | place r i =>
      obtain ⟨hi, hr⟩ := hop
      rcases World.exec_place hx with ⟨oid, exch, hl, rfl, _⟩ | ⟨_, _, _, rfl⟩
      · refine h.place hi hr (Exchange.grows_land hl).1 ?_
        intro ord hord
        obtain ⟨_, rfl⟩ := Exchange.land_eq_some hl
        rcases List.mem_append.mp hord with hord | hord
        · exact Or.inl hord
        · rw [List.mem_singleton.mp hord]
          exact Or.inr rfl
      · exact h.place hi hr (.refl _) fun ord hord => Or.inl hord
  | reconcile hd symbol =>
      rcases World.exec_reconcile hx with ⟨_, _, rfl⟩ | ⟨_, _, _, rfl⟩ | ⟨_, _, _, rfl⟩ <;>
        exact ⟨h.memory, h.disk, h.posted, h.landed⟩

/-- The handle of a POST names the order that landed. -/
theorem World.exec_place_ok {hd : OrderHandle} {a : Answer}
    (h : w.exec v (.place r i) a = some (.ok hd, w')) :
    ∀ oid, hd.oid = some oid → w'.exch.Names oid r.originId := by
  cases a with
  | accepted oid told book =>
      obtain ⟨exch, hl, he⟩ := Option.map_eq_some_iff.mp h
      cases he
      intro oid' hoid
      cases told with
      | false => cases hoid
      | true =>
          cases hoid
          exact (Exchange.grows_land hl).2
  | failed landed e =>
      exfalso
      cases landed with
      | none => cases h
      | some oid =>
          simp only [exec] at h
          split at h
          · cases h
          · obtain ⟨_, _, he⟩ := Option.map_eq_some_iff.mp h
            cases he
  | _ => cases h

theorem OrderRecord.For.query (h : r.For v x i) : v.query x r.handle ⊆ x.tradesOf r.originId := by
  cases v with
  | hyperliquid => exact List.Subset.refl _
  | bitso =>
      cases hoid : r.oid with
      | none =>
          simp only [Venue.query, OrderRecord.handle, hoid]
          exact List.Subset.refl _
      | some oid =>
          simp only [Venue.query, OrderRecord.handle, hoid]
          split
          · exact List.Subset.refl _
          · intro t ht
            obtain ⟨ord, hord, hmem⟩ := List.mem_flatMap.mp ht
            obtain ⟨hord, he⟩ := List.mem_filter.mp hord
            exact Exchange.mem_tradesOf.mpr
              ⟨ord, hord, (h.oid oid hoid).2 ord hord (by simpa using he), hmem⟩

/-- A fill has the symbol that was asked for and the side of the handle. -/
theorem Venue.reconcile_names {h : OrderHandle} {symbol : String} {ts : List Trade} {f : Fill}
    (hr : v.reconcile h symbol ts = .fill f) (hs : symbol = "" → v = .bitso) :
    f.symbol = symbol ∧ f.side = h.side := by
  cases v with
  | bitso =>
      simp only [reconcile] at hr
      split at hr
      · cases hr
      · split at hr
        · cases hr
        · cases hr
          exact ⟨rfl, rfl⟩
  | hyperliquid =>
      have hne : symbol ≠ "" := by
        intro he
        cases hs he
      simp only [reconcile, if_neg hne] at hr
      split at hr
      · cases hr
      · cases hr
        exact ⟨rfl, rfl⟩

/-- What a reconcile of the record reports is an execution of its intent. -/
theorem World.exec_reconcile_fill {f : Fill} {a : Answer} (hr : r.For v w.exch i)
    (h : w.exec v (.reconcile r.handle i.symbol) a = some (.ok (.fill f), w')) :
    f.symbol = i.symbol ∧ f.side = i.side ∧ w'.exch.Executes r.originId (asdict f) := by
  rcases World.exec_reconcile h with ⟨_, hf, rfl⟩ | ⟨_, _, hf, _⟩ | ⟨_, _, hf, _⟩
  · have hf := (Except.ok.inj hf).symm
    obtain ⟨hne, hrep⟩ := Venue.reconcile_fill hf
    obtain ⟨hsymbol, hside⟩ := Venue.reconcile_names hf hr.named
    exact ⟨hsymbol, hside.trans hr.handle_side, _, hne, hrep, hr.query⟩
  · cases hf
  · cases hf

/-! ## The programs -/

namespace Desk

variable {σ : Type} (d : Desk v σ)

/-- Run with the POSTs followed, a program ends as `Q` says. -/
def wp {α : Type} (s : σ × Intents) (p : M α) (Q : σ × Intents → Except Raised α → Prop) : Prop :=
  Prog.wp (posts.track d.rail) s p Q

def Kept (approved : Intents) (s : σ × Intents) : Prop :=
  Attributed v approved (d.world s.1) s.2

/-- The record in hand is of an order for this intent. -/
structure Holds (approved : Intents) (s : σ × Intents) (r : OrderRecord) (i : Intent) : Prop where
  kept : d.Kept approved s
  mine : (r.originId, i) ∈ approved
  record : r.For v (d.world s.1).exch i

/-- What the call returned tells is in a record of an order for this intent. -/
def Settled (approved : Intents) (o : String) (i : Intent) (s : σ × Intents)
    (x : Except Raised Outcome) : Prop :=
  d.Kept approved s ∧ ∀ out, x = .ok out → ∃ r, r.originId = o ∧ d.Holds approved s r i ∧
    out.state = r.state ∧ out.fill = r.fill.bind FillDict.toFill

variable {d} {s s' : σ × Intents} {symbol : String}

theorem grows_call (d : Desk v σ) (s : σ × Intents) (op : Op) :
    (d.world s.1).exch.Grows (d.world (posts.track d.rail s op).2.1).exch := by
  obtain ⟨es, a, hx⟩ := d.answers s.1 op
  exact (World.grows_drift es _).trans (World.grows_exec hx)

/-- Whatever the program, the exchange only grows under it. -/
theorem grows_eval {α : Type} (d : Desk v σ) : ∀ (p : M α) (s : σ × Intents),
    (d.world s.1).exch.Grows (d.world (p.eval (posts.track d.rail) s).2.1).exch
  | .ret _, _ => .refl _
  | .raise _, _ => .refl _
  | .call op _, s => (d.grows_call s op).trans (grows_eval d _ (posts.track d.rail s op).2)

theorem Kept.call (h : d.Kept approved s) (op : Op)
    (hop : Fair v approved (d.world s.1).exch op) :
    d.Kept approved (posts.track d.rail s op).2 := by
  obtain ⟨es, a, hx⟩ := d.answers s.1 op
  exact (Attributed.drift h es).exec (hop.later (World.grows_drift es _)) hx

theorem Holds.call (h : d.Holds approved s r i) (op : Op)
    (hop : Fair v approved (d.world s.1).exch op) :
    d.Holds approved (posts.track d.rail s op).2 r i :=
  ⟨h.kept.call op hop, h.mine, h.record.later (d.grows_call s op)⟩

theorem Holds.fair (h : d.Holds approved s r i) :
    Fair v approved (d.world s.1).exch (.store r) :=
  ⟨rfl, i, h.mine, h.record⟩

/-- A record that was looked up is of an order for an intent approved under its id. -/
theorem Kept.found {op : Op} (h : d.Kept approved s) (hop : op = .get o ∨ op = .item o)
    (hr : (d.world s.1).orders.get? o = some r) :
    ∃ i, r.originId = o ∧ d.Holds approved (posts.track d.rail s op).2 r i := by
  obtain ⟨ho, i, hi, hfor⟩ := h.memory o r hr
  have hop : Fair v approved (d.world s.1).exch op := by
    rcases hop with rfl | rfl <;> trivial
  exact ⟨i, ho, h.call op hop, ho ▸ hi, hfor.later (d.grows_call s op)⟩

theorem get_eq (d : Desk v σ) (s : σ) (o : String) :
    (d.rail s (.get o)).1 = (d.world s).orders.get? o := by
  obtain ⟨es, a, hx⟩ := d.answers s (.get o)
  rw [(World.exec_get hx).1, World.orders_drift]

theorem item_eq (d : Desk v σ) (s : σ) (o : String) :
    (d.rail s (.item o)).1 = (d.world s).orders.get? o := by
  obtain ⟨es, a, hx⟩ := d.answers s (.item o)
  rw [(World.exec_item hx).1, World.orders_drift]

section Programs
variable {state : OrderState} {reason : String}

theorem call_wp {α : Type} {op : Op} {k : Ret op → M α} {Q : σ × Intents → Except Raised α → Prop}
    (h : d.wp (posts.track d.rail s op).2 (k (d.rail s.1 op).1) Q) :
    d.wp s (ask op >>= k) Q :=
  h

theorem persist_wp {event : String} {Q : σ × Intents → Except Raised Unit → Prop}
    (h : d.Holds approved s r i) (hQ : ∀ s', d.Holds approved s' r i → Q s' (.ok ())) :
    d.wp s (persist r event) Q :=
  hQ _ (((h.call (.store r) h.fair).call (.append event r) trivial).call .checkpoint trivial)

/-- A record with another state is of an order for the same intent, if it is not
said to be filled. -/
theorem Holds.turn (h : d.Holds approved s r i) (hs : state ≠ .filled) :
    d.Holds approved s { r with state := state, reason := reason } i :=
  ⟨h.kept, h.mine, h.record.revise rfl rfl rfl rfl (fun he => absurd he hs) h.record.oid⟩

theorem setState_wp {Q : σ × Intents → Except Raised OrderRecord → Prop}
    (h : d.Holds approved s { r with state := state, reason := reason } i)
    (hQ : ∀ s', d.Holds approved s' { r with state := state, reason := reason } i →
      Q s' (.ok { r with state := state, reason := reason })) :
    d.wp s (setState r state reason) Q :=
  Prog.wp_bind (persist_wp h hQ)

theorem outcome_wp (h : d.Holds approved s r i) :
    d.wp s (outcome r) (d.Settled approved r.originId i) := by
  unfold outcome
  cases hf : r.fill with
  | none =>
      refine ⟨h.kept, ?_⟩
      rintro _ ⟨⟩
      exact ⟨r, rfl, h, rfl, by rw [hf]; rfl⟩
  | some f =>
      simp only
      cases ht : f.toFill with
      | none => exact ⟨h.kept, fun _ he => nomatch he⟩
      | some fill =>
          refine ⟨h.kept, ?_⟩
          rintro _ ⟨⟩
          exact ⟨r, rfl, h, rfl, by rw [hf]; exact ht.symm⟩

theorem tryFill_wp {Q : σ × Intents → Except Raised (Bool × OrderRecord) → Prop}
    (h : d.Holds approved s r i) (hsymbol : symbol = "" ∨ symbol = i.symbol)
    (hfill : ∀ s' r', r'.originId = r.originId → d.Holds approved s' r' i → Q s' (.ok (true, r')))
    (hnone : ∀ s', d.Holds approved s' r i → Q s' (.ok (false, r)))
    (hraise : ∀ s' e, d.Kept approved s' → Q s' (.error e)) :
    d.wp s (tryFill r symbol) Q := by
  have hasked : (if symbol = "" then r.symbol else symbol) = i.symbol := by
    split
    · exact h.record.symbol
    · next hne => exact hsymbol.resolve_left hne
  have hnext : d.Holds approved ((d.rail s.1 (.reconcile r.handle i.symbol)).2, s.2) r i :=
    h.call (.reconcile r.handle i.symbol) trivial
  obtain ⟨es, a, hx⟩ := d.answers s.1 (.reconcile r.handle i.symbol)
  have hrecord := h.record.later (World.grows_drift es (d.world s.1))
  unfold tryFill
  rw [hasked]
  refine call_wp (show d.wp (_, s.2) _ Q from ?_)
  cases hreply : (d.rail s.1 (.reconcile r.handle i.symbol)).1 with
  | error e => exact hraise _ e hnext.kept
  | ok result =>
      cases result with
      | unfilled reason => exact hnone _ hnext
      | fill f =>
          rw [hreply] at hx
          obtain ⟨hsym, hside, hexec⟩ := World.exec_reconcile_fill hrecord hx
          refine Prog.wp_bind (setState_wp ⟨hnext.kept, hnext.mine, ?_⟩ fun s' h' => hfill s' _ rfl h')
          exact {
            symbol := hnext.record.symbol
            named := hnext.record.named
            side := hnext.record.side
            oid := hnext.record.oid
            fill := by
              rintro _ ⟨⟩
              exact ⟨hsym, congrArg Side.value hside, hexec⟩
            filled := fun _ => rfl }

/-- A POST of the record's own intent. -/
theorem placeOnce_wp {Q : σ × Intents → Except Raised OrderRecord → Prop}
    (h : d.Holds approved s r i)
    (hdone : ∀ s' r', r'.originId = r.originId → d.Holds approved s' r' i → Q s' (.ok r'))
    (hraise : ∀ s' e, d.Kept approved s' → Q s' (.error e)) :
    d.wp s (placeOnce r i) Q := by
  -- one attempt more is the same order
  have h₁ : d.Holds approved s { r with attempts := r.attempts + 1 } i :=
    ⟨h.kept, h.mine, h.record.revise rfl rfl rfl rfl id h.record.oid⟩
  have hnext := h₁.call (.place _ i) ⟨h₁.mine, h₁.record⟩
  obtain ⟨es, a, hx⟩ := d.answers s.1 (.place { r with attempts := r.attempts + 1 } i)
  unfold placeOnce
  refine call_wp ?_
  cases hreply : (d.rail s.1 (.place { r with attempts := r.attempts + 1 } i)).1 with
  | error e =>
      cases e with
      | other e => exact hraise _ _ hnext.kept
      | bitso e =>
          simp only
          split
          · exact setState_wp (hnext.turn (by decide)) fun s' h' => hdone s' _ rfl h'
          · exact setState_wp (hnext.turn (by decide)) fun s' h' => hdone s' _ rfl h'
  | ok hd =>
      rw [hreply] at hx
      have hnames := World.exec_place_ok hx
      refine setState_wp ⟨hnext.kept, hnext.mine, ?_⟩ fun s' h' => hdone s' _ rfl h'
      exact hnext.record.revise rfl rfl rfl rfl (fun he => nomatch he) hnames

/-- A command that raised has nothing to tell. -/
theorem Kept.raised {e : Raised} (h : d.Kept approved s) : d.Settled approved o i s (.error e) :=
  ⟨h, fun _ he => nomatch he⟩

/-- What is left to do for an order that was reconciled unfilled and is not UNKNOWN. -/
theorem rest_wp (h : d.Holds approved s r i) :
    d.wp s (setState r .open "resting" >>= outcome) (d.Settled approved r.originId i) :=
  Prog.wp_bind (setState_wp (h.turn (by decide)) fun _ h' => outcome_wp h')

theorem placeLoop_wp (hsymbol : symbol = "" ∨ symbol = i.symbol) :
    ∀ (fuel : ℕ) {s : σ × Intents} {r : OrderRecord}, d.Holds approved s r i →
      d.wp s (placeLoop i symbol fuel r) (d.Settled approved r.originId i)
  | 0, _, _, h => outcome_wp h
  | fuel + 1, s, r, h => by
      refine Prog.wp_bind (placeOnce_wp h ?_ fun s' e h' => h'.raised)
      intro s₁ r₁ ho₁ h₁
      rw [← ho₁]
      show d.wp s₁ (if _ then _ else _) _
      split
      · exact outcome_wp h₁
      · refine Prog.wp_bind (tryFill_wp h₁ hsymbol ?_ ?_ fun s' e h' => h'.raised)
        · intro s₂ r₂ ho₂ h₂
          rw [← ho₂]
          exact outcome_wp h₂
        · intro s₂ h₂
          show d.wp s₂ (if _ then _ else _) _
          rw [if_neg (by simp)]
          split
          · exact rest_wp h₂
          · exact placeLoop_wp hsymbol fuel h₂

theorem resolve_wp {n : ℤ} (hsymbol : symbol = "" ∨ symbol = i.symbol)
    (h : d.Holds approved s r i) :
    d.wp s (resolve r i symbol n) (d.Settled approved r.originId i) := by
  unfold resolve
  split
  · exact outcome_wp h
  · split
    · refine Prog.wp_bind (tryFill_wp h hsymbol ?_ ?_ fun s' e h' => h'.raised)
      · intro s₁ r₁ ho₁ h₁
        rw [← ho₁]
        exact outcome_wp h₁
      · intro s₁ h₁
        show d.wp s₁ (if _ then _ else _) _
        rw [if_neg (by simp)]
        split
        · exact rest_wp h₁
        · exact placeLoop_wp hsymbol _ h₁
    · exact placeLoop_wp hsymbol _ h

/-- Submitted under its own symbol, and under an id no other intent was approved under,
an intent is told what became of an order for it. -/
theorem submit_wp {n : ℤ} (h : d.Kept approved s) (hi : (o, i) ∈ approved)
    (hmine : ∀ j, (o, j) ∈ approved → j = i) (hnamed : i.symbol = "" → v = .bitso) :
    d.wp s (submit i o i.symbol n) (d.Settled approved o i) := by
  have hnext := h.call (.get o) trivial
  refine call_wp ?_
  rw [get_eq]
  cases hr : (d.world s.1).orders.get? o with
  | some r =>
      obtain ⟨j, rfl, hholds⟩ := h.found (Or.inl rfl) hr
      obtain rfl := hmine j hholds.mine
      exact resolve_wp (Or.inr rfl) hholds
  | none =>
      refine Prog.wp_bind (persist_wp ⟨hnext, hi, ?_⟩ fun s' h' => resolve_wp (Or.inr rfl) h')
      exact {
        symbol := rfl
        named := hnamed
        side := rfl
        oid := fun _ he => nomatch he
        fill := fun _ he => nomatch he
        filled := fun he => nomatch he }

/-- Once an order is told of, the surroundings are still attributed. -/
theorem told_wp (h : d.Holds approved s r i) :
    d.wp s (outcome r >>= fun o => pure (some o)) fun s' _ => d.Kept approved s' := by
  refine Prog.wp_bind (Prog.wp_mono (outcome_wp h) ?_)
  rintro s' (_ | _) hs
  · exact hs.1
  · exact hs.1

theorem recoverOne_wp (h : d.Kept approved s) :
    d.wp s (recoverOne Dict.empty o) fun s' _ => d.Kept approved s' := by
  have hnext := h.call (.item o) trivial
  refine call_wp ?_
  rw [item_eq]
  cases hr : (d.world s.1).orders.get? o with
  | none => exact hnext
  | some r =>
      obtain ⟨i, _, hholds⟩ := h.found (Or.inr rfl) hr
      show d.wp _ (if _ then _ else _) _
      split
      · exact hnext
      · -- without a map a record that has no symbol is asked for under none
        have hsymbol : ∀ y, y = (if r.symbol = "" then (Dict.empty : Dict String String).getD o ""
            else r.symbol) → y = "" ∨ y = i.symbol := by
          rintro _ rfl
          split
          · exact Or.inl rfl
          · exact Or.inr hholds.record.symbol
        refine Prog.wp_bind (tryFill_wp hholds (hsymbol _ rfl) ?_ ?_ fun s' e h' => h')
        · exact fun s₁ r₁ _ h₁ => told_wp h₁
        · intro s₁ h₁
          show d.wp s₁ (if _ then _ else _) _
          split
          · exact Prog.wp_bind (setState_wp (h₁.turn (by decide)) fun s₂ h₂ => told_wp h₂)
          · exact told_wp h₁

theorem recoverAll_wp : ∀ (os : List String) {s : σ × Intents}, d.Kept approved s →
    d.wp s (recoverAll Dict.empty os) fun s' _ => d.Kept approved s'
  | [], _, h => h
  | o :: os, s, h => by
      refine Prog.wp_bind (Prog.wp_mono (recoverOne_wp h) ?_)
      rintro s₁ (_ | _) h₁
      · exact h₁
      · refine Prog.wp_bind (Prog.wp_mono (recoverAll_wp os h₁) ?_)
        rintro s₂ (_ | _) h₂
        · exact h₂
        · exact h₂

theorem recover_wp (h : d.Kept approved s) :
    d.wp s (recover Dict.empty) fun s' _ => d.Kept approved s' :=
  call_wp (recoverAll_wp _ (h.call .ids trivial))

end Programs

/-- A fill that is told of an order for an intent has its symbol and its side, and is
made of trades of orders under its id. -/
theorem Settled.filled {x : Except Raised Outcome} {out : Outcome}
    (h : d.Settled approved o i s x) (hx : x = .ok out) (hf : out.state = .filled) :
    ∃ f, out.fill = some f ∧ f.symbol = i.symbol ∧ f.side = i.side ∧
      (d.world s.1).exch.Executes o (asdict f) := by
  obtain ⟨r, rfl, hholds, hstate, hfill⟩ := h.2 out hx
  obtain ⟨fd, hfd⟩ := Option.isSome_iff_exists.mp (hholds.record.filled (hstate ▸ hf))
  obtain ⟨hsymbol, hside, hexec⟩ := hholds.record.fill fd hfd
  obtain ⟨f, hf, rfl, hfside⟩ := FillDict.toFill_of_side hside
  exact ⟨f, by rw [hfill, hfd]; exact hf, hsymbol, hfside, hexec⟩

/-! ### A desk that follows a script -/

/-- For each call to the executor, what the exchange does before it and how it comes out. -/
abbrev Script := List (List Env × Answer)

/-- What a call comes to that the script has no answer for. -/
def unanswered (w : World) : (op : Op) → Ret op × World
  | .get o | .item o => (w.orders.get? o, w)
  | .ids => (w.orders.keys, w)
  | .store r => ((), w.store r)
  | .append event r => ((), w.append event r)
  | .checkpoint => ((), w.checkpoint)
  | .place r _ => (.error (.other "no answer"), w.posted r w.exch)
  | .reconcile h _ => (.error (.other "no answer"), w.asked (.failed h.originId))

def follow (v : Venue) (s : World × Script) (op : Op) : Ret op × (World × Script) :=
  let (es, a) := s.2.headD ([], .done)
  match (s.1.drift es).exec v op a with
  | some (y, w) => (y, (w, s.2.tail))
  | none => ((unanswered s.1 op).1, ((unanswered s.1 op).2, s.2))

theorem unanswered_exec (w : World) (op : Op) : ∃ a, w.exec v op a = some (unanswered w op) := by
  cases op with
  | place r i => exact ⟨.failed none (.other "no answer"), rfl⟩
  | reconcile h symbol => exact ⟨.raised (.other "no answer"), rfl⟩
  | _ => exact ⟨.done, rfl⟩

def scripted (v : Venue) : Desk v (World × Script) where
  rail := follow v
  reboot s := s.1.reboot.map fun w => (w, s.2)
  world := Prod.fst
  answers s op := by
    unfold follow
    simp only
    split
    · next y w hx => exact ⟨_, _, hx⟩
    · obtain ⟨a, hx⟩ := unanswered_exec s.1 op
      exact ⟨[], a, hx⟩
  reboots s := by
    cases s.1.reboot <;> rfl

end Desk

end TreasuryForge.Orders

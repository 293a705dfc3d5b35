/-
# `Orders.Growth` — what an exchange never takes back

Orders trade, leave the book and are joined by new ones, but an order that landed keeps
its ids and its trades, and an order id is never given twice.  `Grows` is that relation
between two exchanges, and `grows_exec` and `grows_drift` say that it holds across every
call of the manager and everything the exchange does between calls.  What is said of an
order by its id (`Names`), or of a fill by the trades it is made of (`Executes`), stays
true.
-/
import TreasuryForge.Orders.World

namespace TreasuryForge.Orders

open Resume

namespace Exchange

variable {x x' x'' : Exchange} {o oid : String}

/-- Later, every order is still there under its ids with its trades, and a new order has
a new order id. -/
structure Grows (x x' : Exchange) : Prop where
  kept : ∀ r ∈ x.orders, ∃ r' ∈ x'.orders,
    r'.oid = r.oid ∧ r'.originId = r.originId ∧ r.trades ⊆ r'.trades
  fresh : ∀ r' ∈ x'.orders, (∃ r ∈ x.orders, r.oid = r'.oid ∧ r.originId = r'.originId) ∨
    ∀ r ∈ x.orders, r.oid ≠ r'.oid

/-- The order id is that of an order with this origin id, and of no other. -/
def Names (x : Exchange) (oid o : String) : Prop :=
  (∃ r ∈ x.orders, r.oid = oid) ∧ ∀ r ∈ x.orders, r.oid = oid → r.originId = o

/-- The fill is made of trades of orders with this origin id. -/
def Executes (x : Exchange) (o : String) (d : FillDict) : Prop :=
  ∃ ts, ts ≠ [] ∧ Reports d ts ∧ ts ⊆ x.tradesOf o

theorem mem_tradesOf {t : Trade} :
    t ∈ x.tradesOf o ↔ ∃ r ∈ x.orders, r.originId = o ∧ t ∈ r.trades := by
  simp only [tradesOf, List.mem_flatMap, mem_of, and_assoc]

theorem Grows.refl (x : Exchange) : x.Grows x where
  kept r hr := ⟨r, hr, rfl, rfl, List.Subset.refl _⟩
  fresh r hr := Or.inl ⟨r, hr, rfl, rfl⟩

theorem Grows.trans (h : x.Grows x') (h' : x'.Grows x'') : x.Grows x'' where
  kept r hr := by
    obtain ⟨r', hr', hoid, horigin, htrades⟩ := h.kept r hr
    obtain ⟨r'', hr'', hoid', horigin', htrades'⟩ := h'.kept r' hr'
    exact ⟨r'', hr'', hoid'.trans hoid, horigin'.trans horigin, List.Subset.trans htrades htrades'⟩
  fresh r'' hr'' := by
    rcases h'.fresh r'' hr'' with ⟨r', hr', hoid, horigin⟩ | hnew
    · rcases h.fresh r' hr' with ⟨r, hr, hoid', horigin'⟩ | hnew
      · exact Or.inl ⟨r, hr, hoid'.trans hoid, horigin'.trans horigin⟩
      · exact Or.inr fun r hr he => hnew r hr (he.trans hoid.symm)
    · refine Or.inr ?_
      intro r hr he
      obtain ⟨r', hr', hoid, _⟩ := h.kept r hr
      exact hnew r' hr' (hoid.trans he)

theorem Grows.amend {f : Order → Order} (hoid : ∀ r, (f r).oid = r.oid)
    (horigin : ∀ r, (f r).originId = r.originId) (htrades : ∀ r, r.trades ⊆ (f r).trades) :
    x.Grows (x.amend oid f) := by
  have hsame : ∀ r : Order, let r' := if r.oid = oid ∧ r.active = true then f r else r
      r'.oid = r.oid ∧ r'.originId = r.originId ∧ r.trades ⊆ r'.trades := by
    intro r
    simp only
    split
    · exact ⟨hoid r, horigin r, htrades r⟩
    · exact ⟨rfl, rfl, List.Subset.refl _⟩
  constructor
  · intro r hr
    exact ⟨_, List.mem_map_of_mem hr, hsame r⟩
  · intro r' hr'
    obtain ⟨r, hr, rfl⟩ := List.mem_map.mp hr'
    exact Or.inl ⟨r, hr, (hsame r).1.symm, (hsame r).2.1.symm⟩

/-- A POST that lands adds an order, and its id names it. -/
theorem grows_land (h : x.land o oid = some x') : x.Grows x' ∧ x'.Names oid o := by
  unfold land at h
  split at h
  · cases h
  · next hn =>
      cases h
      have hnew : ∀ r ∈ x.orders, r.oid ≠ oid := fun r hr he => hn (Or.inr ⟨r, hr, he⟩)
      refine ⟨⟨fun r hr => ?_, fun r' hr' => ?_⟩,
        ⟨⟨oid, o, true, []⟩, ?_, rfl⟩, fun r hr he => ?_⟩
      · exact ⟨r, List.mem_append_left _ hr, rfl, rfl, List.Subset.refl _⟩
      · rcases List.mem_append.mp hr' with hr' | hr'
        · exact Or.inl ⟨r', hr', rfl, rfl⟩
        · rw [List.mem_singleton.mp hr']
          exact Or.inr hnew
      · exact List.mem_append_right _ (List.mem_singleton.mpr rfl)
      · rcases List.mem_append.mp hr with hr | hr
        · exact absurd he (hnew r hr)
        · rw [List.mem_singleton.mp hr]

theorem Names.later (h : x.Names oid o) (hg : x.Grows x') : x'.Names oid o := by
  obtain ⟨⟨r, hr, hoid⟩, hall⟩ := h
  obtain ⟨r₁, hr₁, hoid₁, _⟩ := hg.kept r hr
  refine ⟨⟨r₁, hr₁, hoid₁.trans hoid⟩, ?_⟩
  intro r' hr' he
  rcases hg.fresh r' hr' with ⟨r₀, hr₀, hoid₀, horigin₀⟩ | hnew
  · exact horigin₀.symm.trans (hall r₀ hr₀ (hoid₀.trans he))
  · exact absurd (hoid.trans he.symm) (hnew r hr)

theorem Executes.later {d : FillDict} (h : x.Executes o d) (hg : x.Grows x') :
    x'.Executes o d := by
  obtain ⟨ts, hne, hrep, hsub⟩ := h
  refine ⟨ts, hne, hrep, ?_⟩
  intro t ht
  obtain ⟨r, hr, horigin, hmem⟩ := mem_tradesOf.mp (hsub ht)
  obtain ⟨r', hr', _, horigin', htrades⟩ := hg.kept r hr
  exact mem_tradesOf.mpr ⟨r', hr', horigin'.trans horigin, htrades hmem⟩

theorem Executes.landed {d : FillDict} (h : x.Executes o d) : x.Landed o := by
  obtain ⟨ts, hne, _, hsub⟩ := h
  obtain ⟨t, ht⟩ := List.exists_mem_of_ne_nil _ hne
  obtain ⟨r, hr, horigin, _⟩ := mem_tradesOf.mp (hsub ht)
  exact ⟨r, hr, horigin⟩

end Exchange

namespace World

variable {v : Venue} {w w' : World} {a : Answer}

theorem grows_env (e : Env) : w.exch.Grows (w.env e).exch := by
  rw [exch_env]
  cases e with
  | execute oid t last =>
      exact .amend (fun _ => rfl) (fun _ => rfl) fun _ => List.subset_append_left _ _
  | expire oid => exact .amend (fun _ => rfl) (fun _ => rfl) fun _ => List.Subset.refl _

/-- What the exchange does before a call is answered. -/
def drift (w : World) (es : List Env) : World := es.foldl env w

theorem grows_drift : ∀ (es : List Env) (w : World), w.exch.Grows (w.drift es).exch
  | [], w => .refl w.exch
  | e :: es, w => (grows_env e).trans (grows_drift es (w.env e))

@[simp] theorem orders_drift : ∀ (es : List Env) (w : World), (w.drift es).orders = w.orders
  | [], _ => rfl
  | e :: es, w => (orders_drift es (w.env e)).trans (orders_env e)

/-- A call leaves the exchange as it was, but for a POST that lands. -/
theorem exch_exec {op : Op} {x : Ret op} (h : w.exec v op a = some (x, w')) :
    w'.exch = w.exch ∨ ∃ r i oid, op = .place r i ∧ w.exch.land r.originId oid = some w'.exch := by
  cases op with
  | get o => rw [(exec_get h).2]; exact Or.inl rfl
  | ids => rw [exec_ids h]; exact Or.inl rfl
  | item o => rw [(exec_item h).2]; exact Or.inl rfl
  | store r => rw [exec_store h]; exact Or.inl rfl
  | append event r => rw [exec_append h]; exact Or.inl rfl
  | checkpoint => rw [exec_checkpoint h]; exact Or.inl rfl
  | place r i =>
      rcases exec_place h with ⟨oid, exch, hl, rfl, _⟩ | ⟨_, _, _, rfl⟩
      · exact Or.inr ⟨r, i, oid, rfl, hl⟩
      · exact Or.inl rfl
  | reconcile hd symbol =>
      rcases exec_reconcile h with ⟨_, _, rfl⟩ | ⟨_, _, _, rfl⟩ | ⟨_, _, _, rfl⟩ <;> exact Or.inl rfl

theorem grows_exec {op : Op} {x : Ret op} (h : w.exec v op a = some (x, w')) :
    w.exch.Grows w'.exch := by
  rcases exch_exec h with he | ⟨r, i, oid, rfl, hl⟩
  · rw [he]
    exact .refl _
  · exact (Exchange.grows_land hl).1

end World

end TreasuryForge.Orders

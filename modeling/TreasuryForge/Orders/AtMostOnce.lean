/-
# `Orders.AtMostOnce` — one execution per `origin_id`

The exchange refuses a POST only while an order with its `origin_id` rests there.
So an order must not be POSTed once it has executed and left the book
(`Finished`): nothing but the manager keeps the second one out.  The manager does
so when what it last heard of the order is still true at the POST.  There are
three steps at which it is not, and `postGuard` excludes them: the order finishes
while its POST is the next call, `submit` POSTs a PLACING order that finished
before a crash, or a reconcile that could not see the trades lets a finished
UNKNOWN order be POSTed again.

The invariant is that at most one order per id is *live*: resting, or executed in
part or in full.
-/
import TreasuryForge.Orders.Retry

namespace TreasuryForge.Orders

open Resume

/-! ## Live orders -/

/-- The order rests, or has executed. -/
def Order.Live (r : Order) : Prop := r.active = true ∨ r.trades ≠ []

instance (r : Order) : Decidable r.Live := by unfold Order.Live; infer_instance

namespace Env

/-- The event takes an executed order off the book. -/
def Closes : Env → Order → Prop
  | .execute oid _ last, r => r.oid = oid ∧ last = true
  | .expire oid, r => r.oid = oid ∧ r.trades ≠ []

instance (e : Env) (r : Order) : Decidable (e.Closes r) :=
  match e with
  | .execute _ _ _ => inferInstanceAs (Decidable (_ ∧ _))
  | .expire _ => inferInstanceAs (Decidable (_ ∧ _))

end Env

namespace Exchange

/-- An order with this id has executed, and none is resting. -/
def Finished (x : Exchange) (o : String) : Prop := x.Executed o ∧ ¬ x.Active o

instance (x : Exchange) (o : String) : Decidable (x.Finished o) := by
  unfold Finished; infer_instance

/-- How many orders of an `origin_id` are live. -/
def live (x : Exchange) (o : String) : ℕ := (x.of o).countP fun r => r.Live

variable {x x' : Exchange} {o o' oid : String}

theorem executions_le_live : (x.executions o).length ≤ x.live o := by
  rw [executions, ← List.countP_eq_length_filter]
  refine List.countP_mono_left ?_
  intro r _ hr
  have ht : r.trades ≠ [] := by simpa using hr
  exact decide_eq_true (Or.inr ht)

theorem live_unique (h : x.live o ≤ 1) {r₁ r₂ : Order} (h₁ : r₁ ∈ x.of o) (hl₁ : r₁.Live)
    (h₂ : r₂ ∈ x.of o) (hl₂ : r₂.Live) : r₁ = r₂ := by
  unfold live at h
  rw [List.countP_eq_length_filter] at h
  have m₁ : r₁ ∈ (x.of o).filter fun r => r.Live := List.mem_filter.mpr ⟨h₁, by simpa using hl₁⟩
  have m₂ : r₂ ∈ (x.of o).filter fun r => r.Live := List.mem_filter.mpr ⟨h₂, by simpa using hl₂⟩
  match hf : (x.of o).filter fun r => r.Live with
  | [] => rw [hf] at m₁; cases m₁
  | [r] =>
      rw [hf, List.mem_singleton] at m₁ m₂
      rw [m₁, m₂]
  | _ :: _ :: _ => rw [hf] at h; simp at h

theorem live_eq_zero (ha : ¬ x.Active o) (he : ¬ x.Executed o) : x.live o = 0 := by
  refine List.countP_eq_zero.mpr ?_
  intro r hr hl
  obtain ⟨hm, ho⟩ := mem_of.mp hr
  have hl' : r.Live := by simpa using hl
  rcases hl' with hact | ht
  · exact ha ⟨r, hm, ho, hact⟩
  · exact he ⟨r, hm, ho, ht⟩

/-- A POST for an order that is not finished leaves at most one live order per id. -/
theorem live_land (h : ∀ o', x.live o' ≤ 1) (hf : ¬ x.Finished o) (hl : x.land o oid = some x') :
    x'.live o' ≤ 1 := by
  obtain ⟨ha, rfl⟩ := land_eq_some hl
  have he : ¬ x.Executed o := fun he => hf ⟨he, ha⟩
  have hlive : (Exchange.mk (x.orders ++ [⟨oid, o, true, []⟩])).live o' =
      x.live o' + if o = o' then 1 else 0 := by
    unfold live of
    rw [List.filter_append, List.countP_append]
    by_cases ho : o = o'
    · simp [ho, Order.Live]
    · simp [ho]
  rw [hlive]
  by_cases ho : o = o'
  · subst ho
    simp [live_eq_zero ha he]
  · simpa [ho] using h o'

theorem live_amend (e : Env) : (x.amend e.oid e.act).live o ≤ x.live o := by
  unfold live
  rw [of_amend e.act_originId, List.countP_map]
  refine List.countP_mono_left ?_
  intro r _ hr
  by_cases ht : r.oid = e.oid ∧ r.active = true
  · exact decide_eq_true (Or.inl ht.2)
  · simpa [ht] using hr

/-- An event that closes no executed order of `o` does not finish `o`. -/
theorem not_finished_amend {e : Env} (h : x.live o ≤ 1) (hf : ¬ x.Finished o)
    (hc : ∀ r ∈ x.of o, r.active = true → ¬ e.Closes r) : ¬ (x.amend e.oid e.act).Finished o := by
  rintro ⟨⟨r', hm', ho', ht'⟩, hna⟩
  have hr' := mem_of.mpr ⟨hm', ho'⟩
  rw [of_amend e.act_originId] at hr'
  obtain ⟨r, hr, rfl⟩ := List.mem_map.mp hr'
  refine hna ⟨_, hm', ho', ?_⟩
  by_cases htarget : r.oid = e.oid ∧ r.active = true
  · -- the event is about this order, and leaves it resting
    have hopen := hc r hr htarget.2
    rw [if_pos htarget] at ht' ⊢
    cases e with
    | execute oid t last =>
        cases last with
        | false => rfl
        | true => exact absurd ⟨htarget.1, rfl⟩ hopen
    | expire oid => exact absurd ⟨htarget.1, ht'⟩ hopen
  · -- it had executed before, so it was the order that rested
    rw [if_neg htarget] at ht' ⊢
    obtain ⟨hm, ho⟩ := mem_of.mp hr
    have hact : x.Active o := by
      by_contra hna'
      exact hf ⟨⟨r, hm, ho, ht'⟩, hna'⟩
    obtain ⟨r₁, hm₁, ho₁, ha₁⟩ := hact
    rw [live_unique h hr (Or.inr ht') (mem_of.mpr ⟨hm₁, ho₁⟩) (Or.inl ha₁)]
    exact ha₁

end Exchange

/-! ## The condition and the invariant -/

/-- No order finishes while its POST is the next call; `submit` finds no finished
order PLACING with a pass left; and no reconcile of a finished UNKNOWN order with a
pass left comes back undecided. -/
def postGuard : Guard World Op Cmd Answer Env Unit where
  answer c w op a :=
    (∀ o ∈ op.looksUp, ∀ r ∈ w.orders.get? o, PostsAtOnce c r → ¬ w.exch.Finished o) ∧
    (∀ hd ∈ op.reconciles, ∀ r ∈ w.orders.get? hd.originId, PostsAgain c r →
      a.undecided = true → ¬ w.exch.Finished hd.originId)
  env w h e := ∀ op ∈ h, ∀ r ∈ op.posts, ∀ ord ∈ w.exch.of r.originId, ord.active = true →
    ¬ e.Closes ord

instance : postGuard.Checked where
  call _ _ := isTrue trivial
  answer _ _ _ _ := by unfold postGuard; infer_instance
  env _ _ _ := by unfold postGuard; infer_instance
  crash _ _ := isTrue trivial

/-- A POST is next only for an order that is not finished. -/
def Open (h : Option Op) (w : World) : Prop :=
  ∀ r i, h = some (.place r i) → ¬ w.exch.Finished r.originId

variable {v : Venue} {w w' : World} {a : Answer} {c : Cmd} {t t' : Turn} {op : Op}

/-- The query for an UNKNOWN order is for all its trades, on either venue. -/
theorem query_unknown {r : OrderRecord} (hr : r.Ok) (hs : r.state = .unknown) (x : Exchange) :
    v.query x r.handle = x.tradesOf r.originId := by
  have hoid : r.handle.oid = none := hr.oid (Or.inr hs)
  cases v with
  | bitso => simp only [Venue.query, hoid]; rfl
  | hyperliquid => rfl

theorem open_of_step {h : Option Op} (hb : Base t w) (hb' : Base t' w')
    (hg : postGuard.answer c w op a) (hs : Step v w a c t op t' w')
    (hh : (protocol c).AllowsHead t' h) : Open h w' := by
  rintro r i rfl
  rcases before_place hb hs hh with hnew | ⟨i', o, s, n, r₀, rfl, rfl, rfl, ho, hr, hp, hn⟩ |
      ⟨i', o, s, n, r₀, symbol, rfl, rfl, ho, hr, hu, hn, rfl, hq⟩
  · exact fun hf => hnew (hb'.sound.landed _ (Exchange.landed_of_executed hf.1))
  · rw [ho]
    exact hg.1 o rfl r₀ hr ⟨hp, n, rfl, hn⟩
  · rw [ho]
    rcases hq with ⟨_, hq⟩ | ⟨reason, rfl⟩
    · rw [query_unknown (hb.sound.keyed _ _ hr).2 hu] at hq
      exact fun hf => Exchange.tradesOf_eq_nil.mp hq hf.1
    · exact hg.2 _ rfl r₀ hr ⟨hu, n, rfl, hn⟩ rfl

theorem live_of_step (hl : ∀ o, w.exch.live o ≤ 1) (ho : Open (some op) w)
    (hs : Step v w a c t op t' w') : ∀ o, w'.exch.live o ≤ 1 := by
  cases hs with
  | @landed _ i _ _ _ _ r _ _ _ _ _ hland _ =>
      exact fun o => Exchange.live_land hl (ho r.attempt i rfl) hland
  | _ => exact hl

theorem post_law : Law v postGuard (fun w => ∀ o, w.exch.live o ≤ 1)
    (fun _ h w => (∀ o, w.exch.live o ≤ 1) ∧ Open h w) where
  init _ := Nat.zero_le 1
  enter h hh := by
    refine ⟨h, ?_⟩
    rintro r i rfl
    cases hh
  step hb hj hg hs hb' hh := ⟨live_of_step hj.1 hj.2 hs, open_of_step hb hb' hg hs hh⟩
  finish h := h.1
  envIdle h o := by
    rw [World.exch_env]
    exact (Exchange.live_amend _).trans (h o)
  envBusy h hg := by
    refine ⟨fun o => ?_, fun r i hr => ?_⟩
    · rw [World.exch_env]
      exact (Exchange.live_amend _).trans (h.1 o)
    · rw [World.exch_env]
      exact Exchange.not_finished_amend (h.1 _) (h.2 r i hr) (hg _ hr r rfl)
  reboot _ h hw := by
    obtain ⟨_, _, hexch, _⟩ := World.reboot_eq_some hw
    rwa [hexch]

/-- In a run whose steps all meet the condition, at most one order per `origin_id`
is ever executed. -/
theorem at_most_once {cf : Config World Op Ret Raised (List Outcome) Cmd}
    (hc : (host v).Reach postGuard {} cf) (o : String) :
    (cf.world.exch.executions o).length ≤ 1 :=
  Exchange.executions_le_live.trans ((post_law.always hc).2 o)

def aTrade : Trade := ⟨1, 1, 100, 0, by decide⟩

/-- An order whose answer was lost, found filled by the reconcile: one execution. -/
theorem at_most_once_lost : ∃ cf, (host .bitso).Reach postGuard {} cf ∧
    cf.world.trace = [.place "o", .filled "o"] ∧ (cf.world.exch.executions "o").length ≤ 1 := by
  obtain ⟨cf, hc, ht⟩ := (host .bitso).reach_of_run postGuard {}
    (lostAnswer ++ [.env (.execute "x" aTrade true), .answer .trades])
    (fun cf => cf.world.trace = [.place "o", .filled "o"]) (by decide +kernel)
  exact ⟨cf, hc, by simpa using ht, at_most_once hc "o"⟩

/-- The resting order fills after the reconcile that saw nothing, the retry lands
beside it, and both are executed. -/
theorem executed_twice : ∃ cf, (host .bitso).Reach .any {} cf ∧
    ¬ ∀ o, (cf.world.exch.executions o).length ≤ 1 := by
  obtain ⟨cf, hc, ht⟩ := (host .bitso).reach_of_run .any {}
    (lostAnswer ++ [.answer .trades, .env (.execute "x" aTrade true),
      .answer (.accepted "y" true "btc"), .env (.execute "y" aTrade true)])
    (fun cf => (cf.world.exch.executions "o").length = 2) (by decide +kernel)
  refine ⟨cf, hc, ?_⟩
  intro h
  have htwo : (cf.world.exch.executions "o").length = 2 := by simpa using ht
  have hone := h "o"
  omega

end TreasuryForge.Orders

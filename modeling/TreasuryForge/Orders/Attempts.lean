/-
# `Orders.Attempts` — how often an order is POSTed

`submit` POSTs while the record has fewer attempts than `max_attempts`, and every POST
counts one.  The count is on the record in memory; it gets to disk with the first
checkpoint after the POST.  A process that dies in between is started again with the
old count, and the POST is forgotten (`posted_over_bound`).

`attemptsGuard` excludes this step: a crash while memory counts other attempts of the
order than the journal does.  `Metered` is what the other steps keep: no more POSTs
than the record counts, and no more than `max_attempts`.
-/
import TreasuryForge.Orders.Retry

namespace TreasuryForge.Orders

open Resume

/-- The `max_attempts` of a `submit` of this order. -/
def Cmd.limitOf (o : String) : Cmd → Option ℤ
  | .submit _ o' _ n => if o' = o then some n else none
  | .recover _ => none

/-- The POSTs sent for an order. -/
def World.posts (w : World) (o : String) : ℕ := w.trace.count (.place o)

/-- Every `submit` of the order has the same `max_attempts`. -/
def limitGuard (o : String) (n : ℤ) : Guard World Op Cmd Answer Env Unit where
  call _ c := ∀ m ∈ c.limitOf o, m = n

instance (o : String) (n : ℤ) : (limitGuard o n).Checked where
  call _ _ := by unfold limitGuard; infer_instance
  answer _ _ _ _ := isTrue trivial
  env _ _ _ := isTrue trivial
  crash _ _ := isTrue trivial

/-- Moreover, when the process dies the journal counts as many attempts of the order as
memory does. -/
def attemptsGuard (o : String) (n : ℤ) : Guard World Op Cmd Answer Env Unit where
  call := (limitGuard o n).call
  crash w _ := ∀ r ∈ w.orders.get? o, ∀ r' ∈ w.saved o, r'.attempts = r.attempts

instance (o : String) (n : ℤ) : (attemptsGuard o n).Checked where
  call w c := Guard.Checked.call (G := limitGuard o n) w c
  answer _ _ _ _ := isTrue trivial
  env _ _ _ := isTrue trivial
  crash _ _ := by unfold attemptsGuard; infer_instance

variable {o : String} {n : ℤ} {v : Venue} {w w' : World} {a : Answer} {c : Cmd} {t t' : Turn}
  {op : Op}

/-- The record counts every POST, and the POSTs stay within the bound. -/
structure Metered (o : String) (n : ℤ) (w : World) : Prop where
  counted : ∀ r, w.orders.get? o = some r → w.posts o ≤ r.attempts
  bounded : (w.posts o : ℤ) ≤ n

/-- The command is about the order of the record in hand, and has the bound `n` if that
is `o`. -/
structure Bound (o : String) (n : ℤ) (c : Cmd) (t : Turn) : Prop where
  limit : ∀ m ∈ c.limitOf o, m = n
  mine : ∀ i o' s m r, c = .submit i o' s m → t.record = some r → r.originId = o'

/-! ## The command and its record -/

theorem Bound.start (h : ∀ m ∈ c.limitOf o, m = n) : Bound o n c .idle :=
  ⟨h, fun _ _ _ _ _ _ e => nomatch e⟩

/-- The next turn carries the record of the same order, or none. -/
theorem Bound.congr (h : Bound o n c t)
    (hr : ∀ r', t'.record = some r' → ∃ r, t.record = some r ∧ r'.originId = r.originId) :
    Bound o n c t' where
  limit := h.limit
  mine i o' s m r' hc hr' := by
    obtain ⟨r, ht, ho⟩ := hr r' hr'
    rw [ho]
    exact h.mine i o' s m r hc ht

theorem Bound.step (h : Bound o n c t) (hb : Base t w) (hs : Step v w a c t op t' w') :
    Bound o n c t' := by
  have same : ∀ {r r' : OrderRecord}, t.record = some r → r'.originId = r.originId →
      ∀ r'', some r' = some r'' → ∃ r, t.record = some r ∧ r''.originId = r.originId := by
    rintro r r' ht ho _ ⟨⟩
    exact ⟨r, ht, ho⟩
  have placed : ∀ {r : OrderRecord}, Ready t r → t.record = some r := by
    rintro r (⟨rfl, -⟩ | ⟨rfl, -⟩) <;> rfl
  cases hs with
  | found hg =>
      refine ⟨h.limit, ?_⟩
      rintro _ _ _ _ _ ⟨⟩ ⟨⟩
      exact (hb.sound.keyed _ _ hg).1
  | create =>
      refine ⟨h.limit, ?_⟩
      rintro _ _ _ _ _ ⟨⟩ ⟨⟩
      rfl
  | item _ _ => exact ⟨h.limit, fun _ _ _ _ _ e => nomatch e⟩
  | ids => exact h
  | missing _ | skip _ | raised _ => exact h.congr fun _ e => nomatch e
  | replace hrep =>
      obtain ⟨r₀, ht⟩ := hrep.record
      obtain ⟨-, -, ho, -⟩ := hrep.ok ht (hb.sound.keyed _ _ (hb.fits.record r₀ ht)).2 hb.fits.flying
      exact h.congr (same ht ho)
  | append | checkpoint => exact h.congr (same rfl rfl)
  | landed hr _ _ _ | refused hr _ => exact h.congr (same (placed hr) rfl)
  | noFill _ _ | fill _ _ _ | pending _ => exact h.congr (same rfl rfl)

/-! ## The count -/

/-- What neither POSTs nor touches the record of the order keeps the count. -/
theorem Metered.congr (h : Metered o n w) (hr : w'.orders.get? o = w.orders.get? o)
    (hp : w'.posts o = w.posts o) : Metered o n w' where
  counted r hg := by
    rw [hr] at hg
    rw [hp]
    exact h.counted r hg
  bounded := by
    rw [hp]
    exact h.bounded

theorem posts_asked {call : Call} (hc : call ≠ .place o) : (w.asked call).posts o = w.posts o := by
  show (w.trace ++ [call]).count (.place o) = _
  rw [List.count_append, List.count_singleton, if_neg (by simpa using hc)]
  rfl

theorem posts_posted (w : World) (r : OrderRecord) (x : Exchange) (o : String) :
    (w.posted r x).posts o = w.posts o + if r.originId = o then 1 else 0 := by
  show (w.trace ++ [Call.place r.originId]).count (.place o) = _
  rw [List.count_append, List.count_singleton]
  simp [World.posts]

/-- Writing a record that counts no fewer attempts than the one in memory. -/
theorem Metered.store {r : OrderRecord} (h : Metered o n w)
    (hr : r.originId = o → w.posts o ≤ r.attempts) : Metered o n (w.store r) where
  counted r' hg := by
    have hg' : (w.orders.set r.originId r).get? o = some r' := hg
    rw [Dict.get?_set] at hg'
    split at hg'
    · next ho =>
        cases hg'
        exact hr ho.symm
    · exact h.counted r' hg'
  bounded := h.bounded

/-- A POST of a record that counts fewer attempts than the bound. -/
theorem Metered.post {r : OrderRecord} {x : Exchange} (h : Metered o n w)
    (hg : w.orders.get? r.originId = some r) (hn : r.originId = o → (r.attempts : ℤ) < n) :
    Metered o n (w.posted r.attempt x) := by
  have hget : ∀ o', (w.posted r.attempt x).orders.get? o' =
      if o' = r.originId then some r.attempt else w.orders.get? o' := fun o' => Dict.get?_set _ _ _ _
  by_cases ho : r.originId = o
  · subst ho
    have hp : (w.posted r.attempt x).posts r.originId = w.posts r.originId + 1 := by
      rw [posts_posted]
      exact congrArg _ (if_pos rfl)
    have hle := h.counted r hg
    have hlt := hn rfl
    constructor
    · intro r' hg'
      rw [hget, if_pos rfl] at hg'
      cases hg'
      rw [hp]
      exact Nat.succ_le_succ hle
    · rw [hp]
      push_cast
      omega
  · refine h.congr ?_ ?_
    · rw [hget, if_neg (Ne.symm ho)]
    · rw [posts_posted]
      exact congrArg _ (if_neg ho)

theorem Metered.step (h : Metered o n w) (hc : Bound o n c t) (hb : Base t w)
    (hs : Step v w a c t op t' w') : Metered o n w' := by
  -- a `submit` POSTs its own order, within its own bound
  have within : ∀ {i o' s m r}, c = .submit i o' s m → Ready t r → (r.attempts : ℤ) < m →
      r.originId = o → (r.attempts : ℤ) < n := by
    rintro i o' s m r rfl hr hm ho
    have hrec : t.record = some r := by
      rcases hr with ⟨rfl, -⟩ | ⟨rfl, -⟩ <;> rfl
    have ho' : o' = o := (hc.mine _ _ _ _ r rfl hrec).symm.trans ho
    have hlimit : m = n := hc.limit m (by simp [Cmd.limitOf, ho'])
    rwa [hlimit] at hm
  cases hs with
  | @create _ _ o' _ _ =>
      refine h.store ?_
      intro ho
      -- an order that is not in memory was never POSTed
      have hnone := hb.fits.missing o' rfl
      have hzero : w.posts o = 0 := by
        refine List.count_eq_zero.mpr ?_
        intro hp
        obtain ⟨⟨r, hg⟩, -⟩ := hb.sound.posted o hp
        have ho : o' = o := ho
        rw [← ho, hnone] at hg
        cases hg
      rw [hzero]
      exact Nat.zero_le _
  | replace hrep =>
      obtain ⟨r₀, ht⟩ := hrep.record
      have hg := hb.fits.record r₀ ht
      obtain ⟨-, -, ho, -⟩ := hrep.ok ht (hb.sound.keyed _ _ hg).2 hb.fits.flying
      refine h.store ?_
      intro he
      have hle : w.posts o ≤ r₀.attempts := h.counted r₀ (by rw [← he, ho]; exact hg)
      cases hrep <;> cases ht <;> exact hle
  | landed hr hm _ _ => exact h.post (hr.held hb.fits).1 (within rfl hr hm)
  | refused hr hm => exact h.post (hr.held hb.fits).1 (within rfl hr hm)
  | noFill _ _ | fill _ _ _ | pending _ | raised _ =>
      exact h.congr rfl (posts_asked fun e => nomatch e)
  | append | checkpoint => exact h.congr rfl rfl
  | _ => exact h

/-- A restart from a journal that counts as memory did. -/
theorem Metered.reboot (h : Metered o n w) (hb : Base t w)
    (hg : (attemptsGuard o n).crash w ()) (hw : w.reboot = some w') : Metered o n w' := by
  obtain ⟨hget, -, -, htrace⟩ := World.reboot_eq_some hw
  have hp : w'.posts o = w.posts o := congrArg (List.count _) htrace
  constructor
  · intro r' hg'
    rw [hget] at hg'
    rw [hp]
    by_cases hm : .place o ∈ w.trace
    · obtain ⟨⟨r, hr⟩, -⟩ := hb.sound.posted o hm
      rw [hg r hr r' hg']
      exact h.counted r hr
    · have hzero : w.posts o = 0 := List.count_eq_zero.mpr hm
      rw [hzero]
      exact Nat.zero_le _
  · rw [hp]
    exact h.bounded

theorem metered_cert (hn : 0 ≤ n) :
    Host.Cert (host v) (attemptsGuard o n) protocol (fun _ => .idle) (fun _ => Ends) {}
      (fun w => Base .idle w ∧ Metered o n w)
      (fun c t _ w => Base t w ∧ Metered o n w ∧ Bound o n c t) where
  keeps := entry_keeps v
  init := ⟨sound_fresh.idle, ⟨fun _ h => (nomatch h), hn⟩⟩
  enter h hg _ := ⟨h.1, h.2, .start hg⟩
  answer h hal _ hx _ := by
    obtain ⟨hb, hm, hc⟩ := h
    have hs := step_of_answer hal hx
    exact ⟨hb.answer hs, hm.step hc hb hs, hc.step hb hs⟩
  finish h hq := by
    obtain ⟨hb, hm, -⟩ := h
    have hsound : Sound none _ := hq ▸ hb.sound
    exact ⟨hsound.idle, hm⟩
  envIdle h _ he := by
    cases he
    exact ⟨h.1.env, h.2.congr (by simp) (congrArg (List.count _) (World.trace_env _))⟩
  envBusy h _ _ he := by
    cases he
    exact ⟨h.1.env, h.2.1.congr (by simp) (congrArg (List.count _) (World.trace_env _)), h.2.2⟩
  crashIdle h hg hw := ⟨(h.1.sound.reboot hw).idle, h.2.reboot h.1 hg hw⟩
  crashBusy h hg hw := ⟨(h.1.sound.reboot hw).idle, h.2.1.reboot h.1 hg hw⟩

/-- In a run in which no process dies between a POST of the order and the checkpoint that
counts it, the order is POSTed at most `max_attempts` times. -/
theorem attempts_bounded (hn : 0 ≤ n) {cf : Config World Op Ret Raised (List Outcome) Cmd}
    (hc : (host v).Reach (attemptsGuard o n) {} cf) : (cf.world.posts o : ℤ) ≤ n :=
  (metered_cert hn).always (R := fun w => (w.posts o : ℤ) ≤ n) (fun _ h => h.2.bounded)
    (fun _ _ _ _ h => h.2.1.bounded) hc

/-- A POST that got lost, a crash with its count on disk, and the second and last POST. -/
theorem attempts_bounded_crash : ∃ cf, (host .bitso).Reach (attemptsGuard "o" 2) {} cf ∧
    cf.world.posts "o" = 2 ∧ (cf.world.posts "o" : ℤ) ≤ 2 := by
  obtain ⟨cf, hc, ht⟩ := (host .bitso).reach_of_run (attemptsGuard "o" 2) {}
    ([.call (.submit anIntent "o" "btc" 2), .answer .done, .answer .done, .answer .done,
      .answer .done, .answer (.failed none timeout), .answer .done, .answer .done, .answer .done,
      .crash (), .call (.submit anIntent "o" "btc" 2), .answer .done, .answer .trades,
      .answer (.failed none timeout)])
    (fun cf => cf.world.posts "o" = 2) (by decide +kernel)
  exact ⟨cf, hc, by simpa using ht, attempts_bounded (by decide) hc⟩

/-- With one attempt allowed, the process dies after the POST and POSTs again. -/
theorem posted_over_bound : ∃ cf, (host .bitso).Reach (limitGuard "o" 1) {} cf ∧
    ¬ (cf.world.posts "o" : ℤ) ≤ 1 := by
  obtain ⟨cf, hc, ht⟩ := (host .bitso).reach_of_run (limitGuard "o" 1) {}
    [.call (.submit anIntent "o" "btc" 1), .answer .done, .answer .done, .answer .done,
      .answer .done, .answer (.accepted "x" true "btc"), .crash (),
      .call (.submit anIntent "o" "btc" 1), .answer .done, .answer (.failed none timeout)]
    (fun cf => cf.world.posts "o" = 2) (by decide +kernel)
  refine ⟨cf, hc, ?_⟩
  have htwo : cf.world.posts "o" = 2 := by simpa using ht
  omega

end TreasuryForge.Orders

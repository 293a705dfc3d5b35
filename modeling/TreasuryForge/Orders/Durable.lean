/-
# `Orders.Durable` — an outcome that is terminal stays

Once a command has returned FILLED or REJECTED for an order, every later `submit` of it
returns the same, and asks the executor nothing.  The commands that ended are read off
the host's diary.  Three facts carry this:

    Told       an outcome that is returned is that of a record the command read or wrote
               (`entry_tells`, a fact about the text of the programs)
    Lasting    when the command ends, a terminal record it read or wrote is on disk
    final      a terminal record on disk is never replaced, and is what memory holds,
               also after a restart (`Sound`)

so a later `submit` finds the record, and `resolve` replays it.  A terminal record that a
crash overtakes on its way to disk was told to nobody.
-/
import TreasuryForge.Orders.Terminal

namespace TreasuryForge.Orders

open Resume Protocol

/-! ## What the commands tell -/

/-- The outcome is that of the record. -/
structure Told (r : OrderRecord) (out : Outcome) : Prop where
  originId : out.originId = r.originId
  state : out.state = r.state
  fill : out.fill = r.fill.bind FillDict.toFill
  readable : r.fill.isSome = true → out.fill.isSome = true

/-- The records a command has read or written, as the state of a protocol that allows
every call. -/
def records : Protocol Op Ret (List OrderRecord) where
  allowed _ _ := True
  next
    | seen, .get _, some r => r :: seen
    | seen, .item _, some r => r :: seen
    | seen, .store r, _ => r :: seen
    | seen, _, _ => seen

/-- What is told is told of a record that was seen. -/
def Tells (seen : List OrderRecord) (seen' : List OrderRecord) (outs : List Outcome) : Prop :=
  seen ⊆ seen' ∧ ∀ out ∈ outs, ∃ r ∈ seen', Told r out

/-- A program that ends well has seen what `Q` says. -/
def Sees {α : Type} (seen : List OrderRecord) (p : M α) (Q : List OrderRecord → α → Prop) : Prop :=
  records.Keeps seen p fun seen' x => ∀ a, x = .ok a → Q seen' a

section Programs
variable {seen : List OrderRecord} {r : OrderRecord} {i : Intent} {symbol : String}

theorem sees_bind {α β : Type} {p : M α} {f : α → M β} {Q : List OrderRecord → β → Prop}
    (h : Sees seen p fun seen' a => Sees seen' (f a) Q) : Sees seen (p >>= f) Q := by
  refine keeps_bind (Keeps.mono ?_ h)
  rintro seen' (e | a) hx
  · exact fun _ he => nomatch he
  · exact hx a rfl

theorem Sees.mono {α : Type} {p : M α} {Q Q' : List OrderRecord → α → Prop} (h : Sees seen p Q)
    (hQ : ∀ seen' a, Q seen' a → Q' seen' a) : Sees seen p Q' :=
  Keeps.mono (fun seen' _ hx a ha => hQ seen' a (hx a ha)) h

theorem sees_pure {α : Type} {a : α} {Q : List OrderRecord → α → Prop} (h : Q seen a) :
    Sees seen (pure a) Q := by
  rintro _ ⟨⟩
  exact h

theorem setState_sees {state : OrderState} {reason : String} :
    Sees seen (setState r state reason) fun seen' r' => seen ⊆ seen' ∧ r' ∈ seen' := by
  refine ⟨trivial, fun _ => ⟨trivial, fun _ => ⟨trivial, fun _ => ?_⟩⟩⟩
  rintro _ ⟨⟩
  exact ⟨List.subset_cons_self _ _, List.mem_cons_self⟩

theorem outcome_sees (h : r ∈ seen) : Sees seen (outcome r) fun seen' out =>
    Tells seen seen' [out] := by
  have told : ∀ {out}, Told r out → Tells seen seen [out] := by
    refine fun ht => ⟨List.Subset.refl _, fun out hout => ⟨r, h, ?_⟩⟩
    rw [List.mem_singleton.mp hout]
    exact ht
  unfold outcome
  cases hf : r.fill with
  | none => exact sees_pure (told ⟨rfl, rfl, by rw [hf]; rfl, by rw [hf]; exact fun e => nomatch e⟩)
  | some d =>
      simp only
      cases ht : d.toFill with
      | none => exact fun _ e => nomatch e
      | some f =>
          exact sees_pure (told ⟨rfl, rfl, by rw [hf]; exact ht.symm, fun _ => rfl⟩)

theorem tryFill_sees (h : r ∈ seen) : Sees seen (tryFill r symbol) fun seen' x =>
    seen ⊆ seen' ∧ x.2 ∈ seen' := by
  refine ⟨trivial, ?_⟩
  intro reply
  rcases reply with e | ⟨f | reason⟩
  · exact fun _ e => nomatch e
  · show Sees _ (setState _ _ _ >>= _) _
    exact sees_bind (setState_sees.mono fun seen' r' hr => sees_pure hr)
  · exact sees_pure ⟨List.Subset.refl _, h⟩

theorem placeOnce_sees : Sees seen (placeOnce r i) fun seen' r' => seen ⊆ seen' ∧ r' ∈ seen' := by
  refine ⟨trivial, ?_⟩
  intro reply
  rcases reply with e | hd
  · cases e with
    | other e => exact fun _ e => nomatch e
    | bitso e =>
        show Sees _ (if _ then _ else _) _
        split
        · exact setState_sees
        · exact setState_sees
  · exact setState_sees

/-- What is told later is told of more. -/
theorem Tells.from {seen₀ seen' : List OrderRecord} {outs : List Outcome} (hs : seen₀ ⊆ seen)
    (h : Tells seen seen' outs) : Tells seen₀ seen' outs :=
  ⟨List.Subset.trans hs h.1, h.2⟩

theorem rest_sees {reason : String} : Sees seen (setState r .open reason >>= outcome)
    fun seen' out => Tells seen seen' [out] :=
  sees_bind (setState_sees.mono fun _ _ hr => (outcome_sees hr.2).mono fun _ _ => .from hr.1)

theorem placeLoop_sees : ∀ {fuel : ℕ} {seen : List OrderRecord} {r : OrderRecord}, r ∈ seen →
    Sees seen (placeLoop i symbol fuel r) fun seen' out => Tells seen seen' [out]
  | 0, _, _, h => outcome_sees h
  | fuel + 1, seen, r, _ => by
      refine sees_bind (placeOnce_sees.mono ?_)
      intro seen₁ r₁ h₁
      show Sees _ (if _ then _ else _) _
      split
      · exact (outcome_sees h₁.2).mono fun _ _ => .from h₁.1
      · refine sees_bind ((tryFill_sees h₁.2).mono ?_)
        intro seen₂ x h₂
        have hs := List.Subset.trans h₁.1 h₂.1
        show Sees _ (if _ then _ else _) _
        split
        · exact (outcome_sees h₂.2).mono fun _ _ => .from hs
        · split
          · exact rest_sees.mono fun _ _ => .from hs
          · exact (placeLoop_sees h₂.2).mono fun _ _ => .from hs

theorem resolve_sees {n : ℤ} (h : r ∈ seen) : Sees seen (resolve r i symbol n)
    fun seen' out => Tells seen seen' [out] := by
  unfold resolve
  split
  · exact outcome_sees h
  · split
    · refine sees_bind ((tryFill_sees h).mono ?_)
      intro seen₁ x h₁
      show Sees _ (if _ then _ else _) _
      split
      · exact (outcome_sees h₁.2).mono fun _ _ => .from h₁.1
      · split
        · exact rest_sees.mono fun _ _ => .from h₁.1
        · exact (placeLoop_sees h₁.2).mono fun _ _ => .from h₁.1
    · exact placeLoop_sees h

theorem submit_sees {o s : String} {n : ℤ} : Sees seen (submit i o s n)
    fun seen' out => Tells seen seen' [out] := by
  refine ⟨trivial, ?_⟩
  intro found
  cases found with
  | some r => exact (resolve_sees List.mem_cons_self).mono fun _ _ => .from (List.subset_cons_self _ _)
  | none =>
      refine ⟨trivial, fun _ => ⟨trivial, fun _ => ⟨trivial, fun _ => ?_⟩⟩⟩
      exact (resolve_sees List.mem_cons_self).mono fun _ _ => .from (List.subset_cons_self _ _)

theorem recoverOne_sees {m : Dict String String} {o : String} : Sees seen (recoverOne m o)
    fun seen' out => Tells seen seen' out.toList := by
  have none_told : ∀ {seen₀}, seen ⊆ seen₀ → Tells seen seen₀ [] :=
    fun hs => ⟨hs, fun _ h => absurd h List.not_mem_nil⟩
  refine ⟨trivial, ?_⟩
  intro found
  cases found with
  | none => exact sees_pure (none_told (List.Subset.refl _))
  | some r =>
      have hs := List.subset_cons_self r seen
      show Sees (r :: seen) (if _ then _ else _) _
      split
      · exact sees_pure (none_told hs)
      · refine sees_bind ((tryFill_sees List.mem_cons_self).mono ?_)
        intro seen₁ x h₁
        have hs₁ := List.Subset.trans hs h₁.1
        show Sees _ (if _ then _ else _) _
        split
        · refine sees_bind (setState_sees.mono ?_)
          intro seen₂ r₂ h₂
          have hs₂ := List.Subset.trans hs₁ h₂.1
          exact sees_bind ((outcome_sees h₂.2).mono fun _ _ h₃ => sees_pure (h₃.from hs₂))
        · exact sees_bind ((outcome_sees h₁.2).mono fun _ _ h₃ => sees_pure (h₃.from hs₁))

theorem recoverAll_sees {m : Dict String String} : ∀ {os : List String} {seen : List OrderRecord},
    Sees seen (recoverAll m os) (Tells seen)
  | [], _ => sees_pure ⟨List.Subset.refl _, fun _ h => absurd h List.not_mem_nil⟩
  | _ :: _, _ => by
      refine sees_bind (recoverOne_sees.mono ?_)
      intro seen₁ out h₁
      refine sees_bind (recoverAll_sees.mono fun seen₂ outs h₂ => sees_pure ?_)
      refine ⟨List.Subset.trans h₁.1 h₂.1, ?_⟩
      intro out' hout
      rcases List.mem_append.mp hout with hout | hout
      · obtain ⟨r, hr, ht⟩ := h₁.2 out' hout
        exact ⟨r, h₂.1 hr, ht⟩
      · exact h₂.2 out' hout

theorem entry_tells (v : Venue) (c : Cmd) : Sees [] ((host v).entry c) (Tells []) := by
  cases c with
  | submit i o s n => exact sees_bind (submit_sees.mono fun _ _ h => sees_pure h)
  | recover m => exact ⟨trivial, fun _ => recoverAll_sees⟩

end Programs

/-! ## What is told is on disk -/

/-- The terminal records that were seen are in memory, and but for the one being written
every terminal record in memory is on disk. -/
structure Lasting (u : Option String) (seen : List OrderRecord) (w : World) : Prop where
  seen : ∀ r ∈ seen, r.state.terminal = true → w.orders.get? r.originId = some r
  saved : ∀ o r, w.orders.get? o = some r → r.state.terminal = true → u ≠ some o →
    w.saved o = some r

variable {v : Venue} {w w' : World} {a : Answer} {c : Cmd} {t t' : Turn} {op : Op}
  {seen : List OrderRecord} {r : OrderRecord} {u : Option String}

/-- Writing the record of an order that is new or in flight. -/
theorem Lasting.store (h : Lasting none seen w)
    (hold : ∀ r₀, w.orders.get? r.originId = some r₀ → r₀.state.terminal = false) :
    Lasting (some r.originId) (r :: seen) (w.store r) where
  seen r' hr' hterm := by
    show (w.orders.set r.originId r).get? r'.originId = some r'
    rcases List.mem_cons.mp hr' with rfl | hr'
    · exact Dict.get?_set_self _ _ _
    · have hg := h.seen r' hr' hterm
      have hne : r'.originId ≠ r.originId := by
        intro he
        rw [hold r' (he ▸ hg)] at hterm
        cases hterm
      rw [Dict.get?_set_of_ne _ _ hne]
      exact hg
  saved o r' hg hterm hu := by
    have hne : o ≠ r.originId := fun he => hu (by rw [he])
    have hg' : (w.orders.set r.originId r).get? o = some r' := hg
    rw [Dict.get?_set_of_ne _ _ hne] at hg'
    exact h.saved o r' hg' hterm (Option.some_ne_none o).symm

/-- A POST changes no terminal record. -/
theorem Lasting.post {x : Exchange} (h : Lasting none seen w)
    (hg : w.orders.get? r.originId = some r) (hr : r.state.terminal = false) :
    Lasting none seen (w.posted r.attempt x) := by
  have hs := h.store (r := r.attempt) fun r₀ hg₀ => by
    have hg₀ : w.orders.get? r.originId = some r₀ := hg₀
    rw [hg] at hg₀
    cases hg₀
    exact hr
  refine ⟨fun r' hr' => hs.seen r' (List.mem_cons_of_mem _ hr'), fun o r' hg' hterm _ => ?_⟩
  refine hs.saved o r' hg' hterm ?_
  intro he
  cases he
  have hself : (w.orders.set r.originId r.attempt).get? r.originId = some r' := hg'
  rw [Dict.get?_set_self] at hself
  cases hself
  have hr : r.attempt.state.terminal = false := hr
  rw [hr] at hterm
  cases hterm

/-- A record that was looked up is in memory. -/
theorem Lasting.look {o : String} {u' : Option String} (h : Lasting u' seen w) (hb : Sound u w)
    (hg : w.orders.get? o = some r) : Lasting u' (r :: seen) w where
  seen r' hr' hterm := by
    rcases List.mem_cons.mp hr' with rfl | hr'
    · rw [(hb.keyed o r' hg).1]
      exact hg
    · exact h.seen r' hr' hterm
  saved := h.saved

theorem Lasting.step {x : Ret op} (h : Lasting t.unsaved seen w) (hb : Base t w)
    (hal : Allowed c t op) (hx : w.exec v op a = some (x, w')) :
    Lasting (t.next op x).unsaved (records.next seen op x) w' := by
  have post : ∀ {r : OrderRecord} {i : Intent} {x : Except Raised OrderHandle}, Ready t r →
      w.exec v (.place r.attempt i) a = some (x, w') → Lasting none seen w' := by
    intro r i x hr hx
    obtain ⟨hg, hterm, -⟩ := hr.held hb.fits
    have h : Lasting none seen w := hr.unsaved ▸ h
    rcases World.exec_place hx with ⟨_, _, _, rfl, _⟩ | ⟨_, _, _, rfl⟩
    · exact h.post hg hterm
    · exact h.post hg hterm
  cases hal with
  | get =>
      obtain ⟨rfl, rfl⟩ := World.exec_get hx
      cases hg : w'.orders.get? _ with
      | none => exact h
      | some r => exact h.look hb.sound hg
  | ids =>
      obtain rfl := World.exec_ids hx
      exact h
  | item ht =>
      obtain ⟨rfl, rfl⟩ := World.exec_item hx
      have h : Lasting none seen w' := ht ▸ h
      cases hg : w'.orders.get? _ with
      | none =>
          have hn : ∀ o, t.next (.item o) none = .idle := by intro o; cases t <;> rfl
          rw [hn]
          exact h
      | some r =>
          have hn : ∀ o, t.next (.item o) (some r) = .hold r := by intro o; cases t <;> rfl
          rw [hn]
          exact h.look hb.sound hg
  | @create _ o _ _ =>
      obtain rfl := World.exec_store hx
      refine Lasting.store h ?_
      intro r₀ hg
      have hnone := hb.fits.missing o rfl
      exact absurd (hnone.symm.trans hg) (fun e => nomatch e)
  | @replace _ _ r' hrep =>
      obtain rfl := World.exec_store hx
      obtain ⟨r₀, ht⟩ := hrep.record
      have hg := hb.fits.record r₀ ht
      obtain ⟨hterm, -, ho, -⟩ := hrep.ok ht (hb.sound.keyed _ _ hg).2 hb.fits.flying
      have h : Lasting none seen w := hrep.unsaved ▸ h
      have hs := h.store (r := r') fun r₁ hg₁ => by
        rw [ho, hg] at hg₁
        cases hg₁
        exact hterm
      cases t <;> exact hs
  | append =>
      obtain rfl := World.exec_append hx
      exact ⟨h.seen, h.saved⟩
  | checkpoint =>
      obtain rfl := World.exec_checkpoint hx
      exact ⟨h.seen, fun o r hg _ _ => World.saved_checkpoint.trans hg⟩
  | placeFirst hs hn => exact post (Or.inl ⟨rfl, hs⟩) hx
  | placeAgain hs hn => exact post (Or.inr ⟨rfl, hs⟩) hx
  | reconcile ht =>
      rcases World.exec_reconcile hx with ⟨_, rfl, rfl⟩ | ⟨_, _, rfl, rfl⟩ | ⟨_, _, rfl, rfl⟩
      · cases v.reconcile _ _ (v.query w.exch _) <;> exact ⟨h.seen, h.saved⟩
      · exact ⟨h.seen, h.saved⟩
      · exact ⟨h.seen, h.saved⟩

theorem Lasting.env (h : Lasting u seen w) (e : Env) : Lasting u seen (w.env e) where
  seen := by simpa using h.seen
  saved := by simpa using h.saved

/-- After a restart memory is what was on disk. -/
theorem lasting_reboot (hw : w.reboot = some w') : Lasting none [] w' where
  seen _ h := absurd h List.not_mem_nil
  saved o r hg _ _ := by
    obtain ⟨hget, hsaved, -, -⟩ := World.reboot_eq_some hw
    rw [hsaved, ← hget]
    exact hg

/-! ## A terminal record stays -/

/-- A call keeps the terminal records on disk. -/
theorem saved_exec {x : Ret op} (hb : Base t w) (hx : w.exec v op a = some (x, w')) {o : String}
    (hr : w.saved o = some r) (hterm : r.state.terminal = true) : w'.saved o = some r := by
  cases op with
  | get o => rw [(World.exec_get hx).2]; exact hr
  | ids => rw [World.exec_ids hx]; exact hr
  | item o => rw [(World.exec_item hx).2]; exact hr
  | store r => rw [World.exec_store hx]; exact hr
  | append event r => rw [World.exec_append hx]; exact hr
  | checkpoint =>
      rw [World.exec_checkpoint hx, World.saved_checkpoint]
      exact hb.sound.final o r hr hterm
  | place r i => rcases World.exec_place hx with ⟨_, _, _, rfl, _⟩ | ⟨_, _, _, rfl⟩ <;> exact hr
  | reconcile hd symbol =>
      rcases World.exec_reconcile hx with ⟨_, _, rfl⟩ | ⟨_, _, _, rfl⟩ | ⟨_, _, _, rfl⟩ <;> exact hr

/-- What was seen stays seen. -/
theorem subset_records (seen : List OrderRecord) (op : Op) (x : Ret op) :
    seen ⊆ records.next seen op x := by
  cases op with
  | get o => cases x <;> simp [records]
  | item o => cases x <;> simp [records]
  | store r => exact List.subset_cons_self _ _
  | _ => exact List.Subset.refl _

/-- A call keeps the terminal records in memory. -/
theorem orders_exec {x : Ret op} (h : Lasting t.unsaved seen w) (hb : Base t w)
    (hal : Allowed c t op) (hx : w.exec v op a = some (x, w')) {o : String}
    (hr : w.orders.get? o = some r) (hterm : r.state.terminal = true) :
    w'.orders.get? o = some r := by
  have hstep := (h.look hb.sound hr).step hb hal hx
  rw [← (hb.sound.keyed o r hr).1]
  exact hstep.seen r (subset_records _ _ _ List.mem_cons_self) hterm

/-! ## The diary -/

abbrev Book := Diary Op Raised (List Outcome) Cmd

/-- What was told to be terminal is on disk as it was told. -/
def Sealed (w : World) (d : Book) : Prop :=
  ∀ e ∈ d.past, ∀ outs, e.result = .ok outs → ∀ out ∈ outs, out.state.terminal = true →
    ∃ r, Told r out ∧ w.saved r.originId = some r

/-- Saved terminal records stay, and so does what was sealed. -/
theorem Sealed.congr {d d' : Book} (h : Sealed w d) (hd : d'.past = d.past)
    (hs : ∀ o r, w.saved o = some r → r.state.terminal = true → w'.saved o = some r) :
    Sealed w' d' := by
  intro e he outs hres out hout hterm
  rw [hd] at he
  obtain ⟨r, ht, hr⟩ := h e he outs hres out hout hterm
  exact ⟨r, ht, hs _ r hr (ht.state ▸ hterm)⟩

theorem Sealed.env {d : Book} (h : Sealed w d) (e : Env) : Sealed (w.env e) d :=
  h.congr rfl fun o _ hr _ => (World.saved_env (o := o) e).trans hr

theorem Sealed.reboot {d : Book} (h : Sealed w d) (hw : w.reboot = some w') :
    Sealed w' { past := d.past } :=
  h.congr rfl fun o _ hr _ => ((World.reboot_eq_some hw).2.1 o).trans hr

theorem sealed_cert (v : Venue) :
    Host.Cert (host v).diary .any (fun c => (protocol c).prod records) (fun _ => (.idle, []))
      (fun _ s x => Ends s.1 x ∧ ∀ outs, x = .ok outs → Tells [] s.2 outs) ({}, {})
      (fun s => Base .idle s.1 ∧ Lasting none [] s.1 ∧ Sealed s.1 s.2)
      (fun _ t _ s => Base t.1 s.1 ∧ Lasting t.1.unsaved t.2 s.1 ∧ Sealed s.1 s.2) where
  keeps c := (entry_keeps v c).prod (entry_tells v c)
  init := ⟨sound_fresh.idle, ⟨fun _ h => absurd h List.not_mem_nil, fun _ _ h => nomatch h⟩,
    fun _ h => absurd h List.not_mem_nil⟩
  enter h _ _ := h
  answer := by
    rintro ⟨w, d⟩ ⟨w', d'⟩ _ ⟨t, seen⟩ op a x _ ⟨hb, hl, hsealed⟩ hal _ hx _
    obtain ⟨⟨x₁, w₁⟩, hx₁, he⟩ := Option.map_eq_some_iff.mp hx
    cases he
    exact ⟨hb.answer (step_of_answer hal.1 hx₁), hl.step hb hal.1 hx₁,
      hsealed.congr rfl fun _ _ => saved_exec hb hx₁⟩
  finish := by
    rintro ⟨w, d⟩ c ⟨t, seen⟩ x ⟨hb, hl, hsealed⟩ ⟨hends, htells⟩
    have hu : t.unsaved = none := hends
    have hsound : Sound none w := hu ▸ hb.sound
    have hl : Lasting none seen w := hu ▸ hl
    refine ⟨hsound.idle, ⟨fun _ h => absurd h List.not_mem_nil, hl.saved⟩, ?_⟩
    intro e he outs hres out hout hterm
    rcases List.mem_append.mp he with he | he
    · exact hsealed e he outs hres out hout hterm
    · rw [List.mem_singleton.mp he] at hres
      obtain ⟨r, hr, ht⟩ := (htells outs hres).2 out hout
      have hterm : r.state.terminal = true := ht.state ▸ hterm
      exact ⟨r, ht, hl.saved _ r (hl.seen r hr hterm) hterm (fun e => nomatch e)⟩
  envIdle := by
    rintro ⟨w, d⟩ _ e ⟨hb, hl, hsealed⟩ _ he
    cases he
    exact ⟨hb.env, hl.env e, hsealed.env e⟩
  envBusy := by
    rintro ⟨w, d⟩ _ c ⟨t, seen⟩ _ e ⟨hb, hl, hsealed⟩ _ _ he
    cases he
    exact ⟨hb.env, hl.env e, hsealed.env e⟩
  crashIdle := by
    rintro ⟨w, d⟩ _ b ⟨hb, _, hsealed⟩ _ hw
    obtain ⟨w', hw', he⟩ := Option.map_eq_some_iff.mp hw
    cases he
    exact ⟨(hb.sound.reboot hw').idle, lasting_reboot hw', hsealed.reboot hw'⟩
  crashBusy := by
    rintro ⟨w, d⟩ _ c ⟨t, seen⟩ _ b ⟨hb, _, hsealed⟩ _ hw
    obtain ⟨w', hw', he⟩ := Option.map_eq_some_iff.mp hw
    cases he
    exact ⟨(hb.sound.reboot hw').idle, lasting_reboot hw', hsealed.reboot hw'⟩

/-- What the certificate says of a configuration. -/
theorem sealed_of_reach {cf : Config (World × Book) Op Ret Raised (List Outcome) Cmd}
    (hc : (host v).diary.Reach .any ({}, {}) cf) :
    (∃ u, Sound u cf.world.1) ∧ Sealed cf.world.1 cf.world.2 :=
  (sealed_cert v).always (R := fun s => (∃ u, Sound u s.1) ∧ Sealed s.1 s.2)
    (fun _ h => ⟨⟨_, h.1.sound⟩, h.2.2⟩) (fun _ _ _ _ h => ⟨⟨_, h.1.sound⟩, h.2.2⟩) hc

/-! ## What a later `submit` returns -/

/-- The same order in the same state, with an equal fill. -/
structure Same (out out' : Outcome) : Prop where
  originId : out'.originId = out.originId
  state : out'.state = out.state
  fill : out'.fill = out.fill

/-- If the first command returned a terminal outcome for an order and the later one is a
`submit` of it, the later one looked the order up, called nothing else, and returned the
same. -/
def Replays (first later : Entry Op Raised (List Outcome) Cmd) : Prop :=
  ∀ outs, first.result = .ok outs → ∀ out ∈ outs, out.state.terminal = true →
    ∀ i s n, later.cmd = .submit i out.originId s n →
      later.calls = [.get out.originId] ∧ ∃ out', later.result = .ok [out'] ∧ Same out out'

/-- The command under way is a `submit` that has done nothing yet, or has found the
terminal record and returns it. -/
def Replaying (out : Outcome) (calls : List Op) (c : Cmd) (p : M (List Outcome)) : Prop :=
  ∀ i s n, c = .submit i out.originId s n →
    (calls = [] ∧ p = (host .bitso).entry c) ∨
    (calls = [.get out.originId] ∧ ∃ out', p = .ret [out'] ∧ Same out out')

/-- A terminal record that was told is told again. -/
theorem outcome_of_told {out : Outcome} (h : Told r out) :
    ∃ out', outcome r = .ret out' ∧ Same out out' := by
  unfold outcome
  cases hf : r.fill with
  | none => exact ⟨_, rfl, h.originId.symm, h.state.symm, by rw [h.fill, hf]; rfl⟩
  | some d =>
      obtain ⟨f, hout⟩ := Option.isSome_iff_exists.mp (h.readable (by rw [hf]; rfl))
      have ht : d.toFill = some f := by
        rw [h.fill, hf] at hout
        exact hout
      simp only [ht]
      exact ⟨_, rfl, h.originId.symm, h.state.symm, hout.symm⟩

/-- `submit` of an order with a terminal record returns it. -/
theorem replaying_answer {out : Outcome} {d : Book} {k : Ret op → M (List Outcome)} {x : Ret op}
    (h : Replaying out d.calls c (.call op k)) (hx : w.exec v op a = some (x, w')) (ht : Told r out)
    (hg : w.orders.get? r.originId = some r) (hterm : out.state.terminal = true) :
    Replaying out (d.calls ++ [op]) c (k x) := by
  rintro i s n rfl
  rcases h i s n rfl with ⟨hcalls, hp⟩ | ⟨_, _, hp, _⟩
  · obtain ⟨rfl, hk⟩ := Prog.call.inj hp
    cases hk
    obtain ⟨rfl, rfl⟩ := World.exec_get hx
    obtain ⟨out', ho, hsame⟩ := outcome_of_told ht
    refine Or.inr ⟨by rw [hcalls]; rfl, out', ?_, hsame⟩
    rw [ht.originId, hg]
    have hr : r.state.terminal = true := ht.state ▸ hterm
    show (resolve r i s n >>= fun o => pure [o]) = _
    rw [resolve, if_pos hr, ho]
    rfl
  · cases hp

/-- Every later command of the diary, and the one under way, tells what was told. -/
structure Consistent (cf : Config (World × Book) Op Ret Raised (List Outcome) Cmd) : Prop where
  past : cf.world.2.past.Pairwise Replays
  idle : cf.busy = none → cf.world.2.calls = []
  busy : ∀ c p, cf.busy = some (c, p) → ∀ e ∈ cf.world.2.past, ∀ outs, e.result = .ok outs →
    ∀ out ∈ outs, out.state.terminal = true → Replaying out cf.world.2.calls c p

/-- The command under way ends. -/
theorem Consistent.finish {s : World × Book} {p : M (List Outcome)}
    {x : Except Raised (List Outcome)} (h : Consistent ⟨s, some (c, p)⟩)
    (hp : (∃ outs, p = .ret outs ∧ x = .ok outs) ∨ ∃ e, p = .raise e) :
    Consistent ⟨(host v).diary.finish s c x, none⟩ where
  past := by
    refine List.pairwise_append.mpr ⟨h.past, List.pairwise_singleton _ _, ?_⟩
    intro first hfirst later hlater outs hres out hout hterm i sym n hcmd
    rw [List.mem_singleton.mp hlater] at hcmd ⊢
    have hcmd : c = .submit i out.originId sym n := hcmd
    rcases h.busy c p rfl first hfirst outs hres out hout hterm i sym n hcmd with
      ⟨-, he⟩ | ⟨hcalls, out', he, hsame⟩
    · -- a `submit` that has done nothing yet has not ended
      subst hcmd
      rcases hp with ⟨_, rfl, _⟩ | ⟨_, rfl⟩ <;> cases he
    · rcases hp with ⟨outs', hr, rfl⟩ | ⟨_, hr⟩
      · rw [hr] at he
        cases he
        exact ⟨hcalls, out', rfl, hsame⟩
      · rw [hr] at he
        cases he
  idle _ := rfl
  busy _ _ e := nomatch e

theorem consistent_of_reach {cf : Config (World × Book) Op Ret Raised (List Outcome) Cmd}
    (hc : (host v).diary.Reach .any ({}, {}) cf) : Consistent cf := by
  induction hc with
  | start => exact ⟨List.Pairwise.nil, fun _ => rfl, fun _ _ e => nomatch e⟩
  | @call s c _ _ ih =>
      refine ⟨ih.past, (fun e => nomatch e), ?_⟩
      rintro _ _ ⟨⟩ e he outs hres out hout hterm i sym n rfl
      exact Or.inl ⟨ih.idle rfl, rfl⟩
  | @answer s s' c op k a x hr _ hx ih =>
      obtain ⟨⟨x₁, w₁⟩, hx₁, he⟩ := Option.map_eq_some_iff.mp hx
      cases he
      refine ⟨ih.past, (fun e => nomatch e), ?_⟩
      rintro _ _ ⟨⟩ e he outs hres out hout hterm
      obtain ⟨⟨u, hsound⟩, hsealed⟩ := sealed_of_reach hr
      obtain ⟨r, ht, hsaved⟩ := hsealed e he outs hres out hout hterm
      have hg := hsound.final _ r hsaved (ht.state ▸ hterm)
      exact replaying_answer (ih.busy _ _ rfl e he outs hres out hout hterm) hx₁ ht hg hterm
  | ret _ ih => exact ih.finish (Or.inl ⟨_, rfl, rfl⟩)
  | raise _ ih => exact ih.finish (Or.inr ⟨_, rfl⟩)
  | @env cf e s' _ _ he ih =>
      cases he
      exact ⟨ih.past, ih.idle, ih.busy⟩
  | @crash cf b s' _ _ he ih =>
      obtain ⟨w', _, he⟩ := Option.map_eq_some_iff.mp he
      cases he
      exact ⟨ih.past, fun _ => rfl, fun _ _ e => nomatch e⟩

/-- A terminal record stays on disk, where memory has it too, and nothing but a crash
takes one out of memory. -/
def Stays (crashed : Prop) (w w' : World) : Prop :=
  ∀ o r, r.state.terminal = true →
    (w.saved o = some r → w'.saved o = some r ∧ w'.orders.get? o = some r) ∧
    (w.orders.get? o = some r → ¬ crashed → w'.orders.get? o = some r)

theorem stays_step {cf cf' : Config (World × Book) Op Ret Raised (List Outcome) Cmd}
    {e : Event Cmd Answer Env Unit} (hc : (host v).diary.Reach .any ({}, {}) cf)
    (hs : (host v).diary.step cf e = some cf') :
    Stays (∃ b, e = .crash b) cf.world.1 cf'.world.1 := by
  have hsound := (sealed_of_reach hc).1
  have hholds := (sealed_cert v).sound hc
  obtain ⟨⟨w, d⟩, b⟩ := cf
  obtain ⟨u, hsound⟩ := hsound
  have same : Stays (∃ b, e = .crash b) w w := fun o r hterm =>
    ⟨fun hr => ⟨hr, hsound.final o r hr hterm⟩, fun hr _ => hr⟩
  cases e with
  | call cmd =>
      cases b with
      | some _ => cases hs
      | none => cases hs; exact same
  | done =>
      rcases b with _ | ⟨cmd, _ | _ | _⟩
      · cases hs
      · cases hs; exact same
      · cases hs; exact same
      · cases hs
  | env e =>
      cases hs
      intro o r hterm
      have hfinal := (hsound.env (e := e)).final o r
      exact ⟨fun hr => ⟨(World.saved_env e).trans hr, hfinal ((World.saved_env e).trans hr) hterm⟩,
        fun hr _ => by simpa using hr⟩
  | crash b =>
      obtain ⟨s', hx, rfl⟩ := Option.map_eq_some_iff.mp hs
      obtain ⟨w', hw, hs'⟩ := Option.map_eq_some_iff.mp hx
      cases hs'
      obtain ⟨hget, hsaved, -, -⟩ := World.reboot_eq_some hw
      refine fun o r hterm => ⟨fun hr => ⟨(hsaved o).trans hr, (hget o).trans hr⟩, fun _ hcrash => ?_⟩
      exact absurd ⟨b, rfl⟩ hcrash
  | answer a =>
      rcases b with _ | ⟨cmd, _ | _ | ⟨op, k⟩⟩
      · cases hs
      · cases hs
      · cases hs
      · obtain ⟨⟨x, s'⟩, hx, rfl⟩ := Option.map_eq_some_iff.mp hs
        obtain ⟨⟨x₁, w₁⟩, hx₁, hs'⟩ := Option.map_eq_some_iff.mp hx
        cases hs'
        obtain ⟨⟨t, seen⟩, hk, hb, hl, -⟩ := hholds
        have hb' := hb.answer (step_of_answer hk.1.1 hx₁)
        intro o r hterm
        refine ⟨fun hr => ?_, fun hr _ => orders_exec hl hb hk.1.1 hx₁ hr hterm⟩
        have hr' := saved_exec hb hx₁ hr hterm
        exact ⟨hr', hb'.sound.final o r hr' hterm⟩

/-- In every run, whatever ends with a terminal outcome for an order is repeated by each
later `submit` of it, without a call to the executor; and no event takes a terminal
record back, but for the crash that comes before it is on disk. -/
theorem terminal_durable {cf : Config (World × Book) Op Ret Raised (List Outcome) Cmd}
    (hc : (host v).diary.Reach .any ({}, {}) cf) :
    cf.world.2.past.Pairwise Replays ∧
    ∀ e cf', (host v).diary.step cf e = some cf' →
      Stays (∃ b, e = .crash b) cf.world.1 cf'.world.1 :=
  ⟨(consistent_of_reach hc).past, fun _ _ => stays_step hc⟩

/-- An order that was filled, a crash, and a `submit` of it with another intent. -/
theorem terminal_durable_crash : ∃ cf, (host .bitso).diary.Reach .any ({}, {}) cf ∧
    (cf.world.2.past.length = 2 ∧ ∀ e ∈ cf.world.2.past, (e.result.toOption.bind List.head?).any
      (fun out => out.state = .filled ∧ out.fill.isSome = true) = true) ∧
    cf.world.2.past.Pairwise Replays := by
  obtain ⟨cf, hc, ht⟩ := (host .bitso).diary.reach_of_run .any ({}, {})
    (resting ++ [.env (.execute "x" firstPart true), .answer .trades, .answer .done, .answer .done,
      .answer .done, .done, .crash (),
      .call (.submit { anIntent with side := .sell } "o" "eth" 1), .answer .done, .done])
    (fun cf => cf.world.2.past.length = 2 ∧
      ∀ e ∈ cf.world.2.past, (e.result.toOption.bind List.head?).any
        (fun out => out.state = .filled ∧ out.fill.isSome = true) = true) (by decide +kernel)
  exact ⟨cf, hc, of_decide_eq_true ht, (terminal_durable hc).1⟩

end TreasuryForge.Orders

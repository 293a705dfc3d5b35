/-
# `Orders.Invariant` — memory, disk and what was sent

What holds of the manager's world whatever the exchange does, at every step of
every run: each record sits under its own id, everything in memory is on disk but
for the record being written, a terminal record on disk is what memory holds, and
an order that was POSTed has a record in both.  `Sound u w` is this with `u` the
order whose record is being written; `Fits` ties the turn of the running program
to memory.

The lemmas follow the calls of the protocol.  `Base.answer` puts them together,
and `before_place` says what came right before a POST: it is the step at which
the properties of the order manager are decided.
-/
import TreasuryForge.Orders.Protocol

namespace TreasuryForge.Orders

open Resume

/-! ## Records -/

namespace OrderRecord

variable {r : OrderRecord}

theorem ok_fresh (i : Intent) (o s : String) : (fresh i o s).Ok :=
  ⟨fun _ => rfl, by simp [fresh]⟩

theorem Ok.attempt (h : r.Ok) : r.attempt.Ok := ⟨h.oid, h.fill⟩

theorem Ok.no_fill (h : r.Ok) (hr : r.state.terminal = false) : r.fill = none := by
  cases hf : r.fill with
  | none => rfl
  | some d =>
      have hs : r.state = .filled := h.fill.mp (by rw [hf]; rfl)
      rw [hs] at hr
      cases hr

end OrderRecord

namespace Turn

/-- The record a turn carries. -/
def record : Turn → Option OrderRecord
  | .idle | .missing _ => none
  | .hold r | .unfilled r | .filled r _ | .answered r _ | .stored r | .logged r => some r

/-- The record of a step under way belongs to an order in flight. -/
def Flying : Turn → Prop
  | .unfilled r | .filled r _ => r.state.terminal = false
  | .answered r _ => r.state = .placing ∨ r.state = .unknown
  | _ => True

end Turn

/-- What replaces the record of an order in flight is again a good record of it, and
not a PLACING one. -/
theorem Replaces.ok {t : Turn} {r r' : OrderRecord} (h : Replaces t r') (ht : t.record = some r)
    (hr : r.Ok) (hs : t.Flying) :
    r.state.terminal = false ∧ r'.Ok ∧ r'.originId = r.originId ∧ r'.state ≠ .placing := by
  have early : r.state = .placing ∨ r.state = .unknown →
      r.state.terminal = false ∧ r.oid = none ∧ r.fill = none := by
    intro he
    have hterm : r.state.terminal = false := by
      rcases he with he | he <;> rw [he] <;> rfl
    exact ⟨hterm, hr.oid he, hr.no_fill hterm⟩
  cases h with
  | rest =>
      cases ht
      exact ⟨hs, ⟨by simp, by simp [hr.no_fill hs]⟩, rfl, by simp⟩
  | fill =>
      cases ht
      exact ⟨hs, ⟨by simp, by simp⟩, rfl, by simp⟩
  | refuse _ =>
      cases ht
      obtain ⟨hterm, _, hfill⟩ := early hs
      exact ⟨hterm, ⟨by simp, by simp [hfill]⟩, rfl, by simp⟩
  | lose _ =>
      cases ht
      obtain ⟨hterm, hoid, hfill⟩ := early hs
      exact ⟨hterm, ⟨fun _ => hoid, by simp [hfill]⟩, rfl, by simp⟩
  | accept =>
      cases ht
      obtain ⟨hterm, _, hfill⟩ := early hs
      exact ⟨hterm, ⟨by simp, by simp [hfill]⟩, rfl, by simp⟩

/-! ## The invariant -/

/-- Memory, disk, exchange and history agree; `unsaved` is the order whose record is
in memory and on its way to disk. -/
structure Sound (unsaved : Option String) (w : World) : Prop where
  keyed : ∀ o r, w.orders.get? o = some r → r.originId = o ∧ r.Ok
  savedKeyed : ∀ o r, w.saved o = some r → r.originId = o ∧ r.Ok
  final : ∀ o r, w.saved o = some r → r.state.terminal = true → w.orders.get? o = some r
  kept : ∀ o r, w.orders.get? o = some r → unsaved ≠ some o → ∃ r', w.saved o = some r'
  posted : ∀ o, .place o ∈ w.trace →
    (∃ r, w.orders.get? o = some r) ∧ ∃ r, w.saved o = some r
  landed : ∀ o, w.exch.Landed o → .place o ∈ w.trace

/-- Memory is as the running program left it. -/
structure Fits (t : Turn) (w : World) : Prop where
  record : ∀ r, t.record = some r → w.orders.get? r.originId = some r
  flying : t.Flying
  missing : ∀ o, t = .missing o → w.orders.get? o = none
  fresh : ∀ r, t = .stored r ∨ t = .logged r → r.state = .placing → .place r.originId ∉ w.trace

structure Base (t : Turn) (w : World) : Prop where
  sound : Sound t.unsaved w
  fits : Fits t w

variable {v : Venue} {w w' : World} {a : Answer} {r : OrderRecord} {u : Option String}

theorem sound_fresh : Sound none {} where
  keyed _ _ h := nomatch h
  savedKeyed _ _ h := nomatch h
  final _ _ h := nomatch h
  kept _ _ h := nomatch h
  posted _ h := nomatch h
  landed _ h := by
    obtain ⟨_, hr, _⟩ := h
    cases hr

/-- Writing the record of an order that is new or in flight. -/
theorem Sound.store (h : Sound none w) (hr : r.Ok)
    (hold : ∀ r₀, w.orders.get? r.originId = some r₀ → r₀.state.terminal = false) :
    Sound (some r.originId) (w.store r) where
  keyed o r' hg := by
    have hg' : (w.orders.set r.originId r).get? o = some r' := hg
    rw [Dict.get?_set] at hg'
    split at hg'
    · next ho => cases hg'; exact ⟨ho.symm, hr⟩
    · exact h.keyed o r' hg'
  savedKeyed := h.savedKeyed
  final o r' hs hterm := by
    have hg := h.final o r' hs hterm
    have ho : o ≠ r.originId := by
      rintro rfl
      rw [hold r' hg] at hterm
      cases hterm
    show (w.orders.set r.originId r).get? o = some r'
    rw [Dict.get?_set_of_ne _ _ ho]
    exact hg
  kept o r' hg hu := by
    have ho : o ≠ r.originId := fun e => hu (by rw [e])
    have hg' : (w.orders.set r.originId r).get? o = some r' := hg
    rw [Dict.get?_set_of_ne _ _ ho] at hg'
    exact h.kept o r' hg' (Option.some_ne_none o).symm
  posted o hp := by
    obtain ⟨⟨r', hg⟩, hs⟩ := h.posted o hp
    refine ⟨?_, hs⟩
    show ∃ r'', (w.orders.set r.originId r).get? o = some r''
    rw [Dict.get?_set]
    split
    · exact ⟨r, rfl⟩
    · exact ⟨r', hg⟩
  landed := h.landed

/-- A POST for an order in flight, whatever the exchange made of it. -/
theorem Sound.posted_step {x : Exchange} (h : Sound none w) {r₀ : OrderRecord}
    (hg : w.orders.get? r.originId = some r₀) (hr₀ : r₀.state.terminal = false) (hr : r.Ok)
    (hx : ∀ o, x.Landed o → w.exch.Landed o ∨ o = r.originId) : Sound none (w.posted r x) := by
  have hs : Sound (some r.originId) (w.store r) :=
    h.store hr fun r' hg' => by
      rw [hg] at hg'
      cases hg'
      exact hr₀
  have hkept := h.kept _ _ hg (fun e => nomatch e)
  exact {
    keyed := hs.keyed
    savedKeyed := hs.savedKeyed
    final := hs.final
    kept := by
      intro o r' hg' _
      rcases eq_or_ne o r.originId with rfl | ho
      · exact hkept
      · exact hs.kept o r' hg' (fun e => ho (Option.some.inj e).symm)
    posted := by
      intro o hp
      rcases List.mem_append.mp hp with hp | hp
      · exact hs.posted o hp
      · obtain rfl : o = r.originId := by simpa using hp
        exact ⟨⟨r, Dict.get?_set_self _ _ _⟩, hkept⟩
    landed := by
      intro o hl
      rcases hx o hl with hl | rfl
      · exact List.mem_append_left _ (h.landed o hl)
      · exact List.mem_append_right _ (List.mem_singleton.mpr rfl) }

theorem Sound.asked {c : Call} (h : Sound u w) (hc : ∀ o, c ≠ .place o) : Sound u (w.asked c) where
  keyed := h.keyed
  savedKeyed := h.savedKeyed
  final := h.final
  kept := h.kept
  posted o hp := by
    rcases List.mem_append.mp hp with hp | hp
    · exact h.posted o hp
    · exact absurd (List.mem_singleton.mp hp).symm (hc o)
  landed o hl := List.mem_append_left _ (h.landed o hl)

theorem Sound.checkpoint (h : Sound u w) : Sound none w.checkpoint where
  keyed := h.keyed
  savedKeyed o r hs := h.keyed o r (World.saved_checkpoint (w := w) ▸ hs)
  final o r hs _ := World.saved_checkpoint (w := w) ▸ hs
  kept o r hg _ := ⟨r, by rw [World.saved_checkpoint]; exact hg⟩
  posted o hp := by
    obtain ⟨hg, _⟩ := h.posted o hp
    exact ⟨hg, by rw [World.saved_checkpoint]; exact hg⟩
  landed := h.landed

theorem Sound.env {e : Env} (h : Sound u w) : Sound u (w.env e) := by
  have hl : ∀ o, (w.env e).exch.Landed o ↔ w.exch.Landed o := by
    intro o
    cases e <;> exact Exchange.landed_amend fun _ => rfl
  constructor
  · simpa using h.keyed
  · simpa using h.savedKeyed
  · simpa using h.final
  · simpa using h.kept
  · simpa using h.posted
  · simpa [hl] using h.landed

/-- After a restart everything in memory is on disk. -/
theorem Sound.reboot (h : Sound u w) (hw : w.reboot = some w') : Sound none w' := by
  obtain ⟨hget, hsaved, hexch, htrace⟩ := World.reboot_eq_some hw
  exact {
    keyed := by simpa only [hget] using h.savedKeyed
    savedKeyed := by simpa only [hsaved] using h.savedKeyed
    final := by
      intro o r hs _
      rwa [hget, ← hsaved]
    kept := by
      intro o r hg _
      exact ⟨r, by rwa [hsaved, ← hget]⟩
    posted := by
      intro o hp
      rw [htrace] at hp
      obtain ⟨_, hs⟩ := h.posted o hp
      exact ⟨by rwa [hget], by rwa [hsaved]⟩
    landed := by
      rw [hexch, htrace]
      exact h.landed }

/-! ## What a call can do -/

/-- One allowed call, answered: the turns before and after, and the world after. -/
inductive Step (v : Venue) (w : World) : Answer → Cmd → Turn → Op → Turn → World → Prop
  | found {a i o s n r} : w.orders.get? o = some r →
      Step v w a (.submit i o s n) .idle (.get o) (.hold r) w
  | missing {a i o s n} : w.orders.get? o = none →
      Step v w a (.submit i o s n) .idle (.get o) (.missing o) w
  | ids {a m} : Step v w a (.recover m) .idle .ids .idle w
  | item {a m t o r} : t.unsaved = none → w.orders.get? o = some r →
      Step v w a (.recover m) t (.item o) (.hold r) w
  | skip {a m t o} : t.unsaved = none → Step v w a (.recover m) t (.item o) .idle w
  | create {a i o s n} : Step v w a (.submit i o s n) (.missing o) (.store (.fresh i o s))
      (.stored (.fresh i o s)) (w.store (.fresh i o s))
  | replace {a c t r} : Replaces t r → Step v w a c t (.store r) (.stored r) (w.store r)
  | append {a c event r} :
      Step v w a c (.stored r) (.append event r) (.logged r) (w.append event r)
  | checkpoint {a c r} : Step v w a c (.logged r) .checkpoint (.hold r) w.checkpoint
  | landed {a i o s n t r oid x reply} : Ready t r → (r.attempts : ℤ) < n →
      w.exch.land r.originId oid = some x →
      ((∃ hd, reply = .ok hd) ∨ ∃ e : Raised, reply = .error e ∧ e.definitive = false) →
      Step v w a (.submit i o s n) t (.place r.attempt i) (.answered r.attempt reply)
        (w.posted r.attempt x)
  | refused {i o s n t r e} : Ready t r → (r.attempts : ℤ) < n →
      Step v w (.failed none e) (.submit i o s n) t (.place r.attempt i)
        (.answered r.attempt (.error e)) (w.posted r.attempt w.exch)
  | noFill {c r symbol} : r.state.terminal = false → v.query w.exch r.handle = [] →
      Step v w .trades c (.hold r) (.reconcile r.handle symbol) (.unfilled r)
        (w.asked (.unfilled r.originId))
  | fill {c r symbol f} : r.state.terminal = false → v.query w.exch r.handle ≠ [] →
      Reports (asdict f) (v.query w.exch r.handle) →
      Step v w .trades c (.hold r) (.reconcile r.handle symbol) (.filled r f)
        (w.asked (.filled r.originId))
  | pending {reason c r symbol} : r.state.terminal = false →
      Step v w (.pending reason) c (.hold r) (.reconcile r.handle symbol) (.unfilled r)
        (w.asked (.unfilled r.originId))
  | raised {e c r symbol} : r.state.terminal = false →
      Step v w (.raised e) c (.hold r) (.reconcile r.handle symbol) .idle
        (w.asked (.failed r.originId))

variable {c : Cmd} {t t' : Turn} {op : Op}

theorem step_of_place {i : Intent} {o s : String} {n : ℤ} {x : Except Raised OrderHandle}
    (hr : Ready t r) (hn : (r.attempts : ℤ) < n)
    (hx : w.exec v (.place r.attempt i) a = some (x, w')) :
    Step v w a (.submit i o s n) t (.place r.attempt i) (.answered r.attempt x) w' := by
  rcases World.exec_place hx with ⟨oid, exch, hl, rfl, hreply⟩ | ⟨e, rfl, rfl, rfl⟩
  · exact .landed hr hn hl hreply
  · exact .refused hr hn

theorem step_of_answer (hal : Allowed c t op) {x : Ret op} (hx : w.exec v op a = some (x, w')) :
    Step v w a c t op (t.next op x) w' := by
  cases hal with
  | get =>
      obtain ⟨rfl, rfl⟩ := World.exec_get hx
      cases hg : w'.orders.get? _ with
      | none => exact .missing hg
      | some r => exact .found hg
  | ids =>
      obtain rfl := World.exec_ids hx
      exact .ids
  | item ht =>
      obtain ⟨rfl, rfl⟩ := World.exec_item hx
      cases hg : w'.orders.get? _ with
      | none => exact .skip ht
      | some r => cases t <;> exact .item ht hg
  | create =>
      obtain rfl := World.exec_store hx
      exact .create
  | replace hr =>
      obtain rfl := World.exec_store hx
      cases t <;> exact .replace hr
  | append =>
      obtain rfl := World.exec_append hx
      exact .append
  | checkpoint =>
      obtain rfl := World.exec_checkpoint hx
      exact .checkpoint
  | placeFirst hs hn => exact step_of_place (Or.inl ⟨rfl, hs⟩) hn hx
  | placeAgain hs hn => exact step_of_place (Or.inr ⟨rfl, hs⟩) hn hx
  | reconcile ht =>
      rcases World.exec_reconcile hx with ⟨rfl, rfl, rfl⟩ | ⟨_, rfl, rfl, rfl⟩ | ⟨_, rfl, rfl, rfl⟩
      · cases hres : v.reconcile _ _ (v.query w.exch _) with
        | unfilled reason => exact .noFill ht (Venue.reconcile_unfilled hres)
        | fill f =>
            obtain ⟨hne, hrep⟩ := Venue.reconcile_fill hres
            exact .fill ht hne hrep
      · exact .pending ht
      · exact .raised ht

/-! ## The invariant is kept -/

theorem Ready.held (h : Ready t r) (hf : Fits t w) :
    w.orders.get? r.originId = some r ∧ r.state.terminal = false ∧
      (r.state = .placing ∨ r.state = .unknown) := by
  obtain ⟨rfl, hs⟩ | ⟨rfl, hs⟩ := h
  · exact ⟨hf.record r rfl, by rw [hs]; rfl, Or.inl hs⟩
  · exact ⟨hf.record r rfl, by rw [hs]; rfl, Or.inr hs⟩

/-- A POST leaves a sound world, whatever the exchange made of it. -/
theorem Base.posted {x : Exchange} {reply : Except Raised OrderHandle} (h : Base t w)
    (hr : Ready t r) (hx : ∀ o, x.Landed o → w.exch.Landed o ∨ o = r.originId) :
    Base (.answered r.attempt reply) (w.posted r.attempt x) := by
  obtain ⟨hg, hterm, hs⟩ := hr.held h.fits
  have hu := hr.unsaved
  have hsound : Sound none w := hu ▸ h.sound
  have hok := (hsound.keyed _ _ hg).2
  refine ⟨hsound.posted_step (r := r.attempt) hg hterm hok.attempt hx, ?_⟩
  exact {
    record := by
      rintro _ ⟨⟩
      exact Dict.get?_set_self _ _ _
    flying := hs
    missing := fun _ e => nomatch e
    fresh := fun _ e => by rcases e with e | e <;> exact nomatch e }

/-- A reconcile leaves a sound world. -/
theorem Base.reconciled {call : Call} (h : Base (.hold r) w) (hc : ∀ o, call ≠ .place o)
    (hf : t'.unsaved = none) (hrec : ∀ r', t'.record = some r' → r' = r) (hfly : t'.Flying)
    (hm : ∀ o, t' ≠ .missing o) : Base t' (w.asked call) := by
  refine ⟨hf ▸ Sound.asked h.sound hc, ?_⟩
  exact {
    record := fun r' e => by
      obtain rfl := hrec r' e
      exact h.fits.record _ rfl
    flying := hfly
    missing := fun o e => absurd e (hm o)
    fresh := by
      rintro r' (rfl | rfl) <;> exact nomatch hf }

theorem Replaces.unsaved (h : Replaces t r) : t.unsaved = none := by
  cases h <;> rfl

theorem Replaces.record (h : Replaces t r) : ∃ r₀, t.record = some r₀ := by
  cases h <;> exact ⟨_, rfl⟩

/-- An idle manager, or one just started, is at the turn `idle`. -/
theorem Sound.idle (h : Sound none w) : Base .idle w where
  sound := h
  fits := {
    record := fun _ e => nomatch e
    flying := trivial
    missing := fun _ e => nomatch e
    fresh := fun _ e => by rcases e with e | e <;> exact nomatch e }

theorem Base.answer (h : Base t w) (hs : Step v w a c t op t' w') : Base t' w' := by
  have look : ∀ {r o}, w.orders.get? o = some r → t.unsaved = none → Base (.hold r) w := by
    intro r o hg hu
    obtain ⟨rfl, _⟩ := h.sound.keyed o r hg
    have hsound : Sound none w := hu ▸ h.sound
    exact ⟨hsound, {
      record := by rintro _ ⟨⟩; exact hg
      flying := trivial
      missing := fun _ e => nomatch e
      fresh := fun _ e => by rcases e with e | e <;> exact nomatch e }⟩
  cases hs with
  | found hg => exact look hg rfl
  | item ht hg => exact look hg ht
  | ids => exact h
  | skip ht => exact Sound.idle (ht ▸ h.sound)
  | missing hg =>
      exact ⟨h.sound, {
        record := fun _ e => nomatch e
        flying := trivial
        missing := by rintro _ ⟨⟩; exact hg
        fresh := fun _ e => by rcases e with e | e <;> exact nomatch e }⟩
  | @create _ i o s n =>
      have hnone := h.fits.missing o rfl
      refine ⟨Sound.store h.sound (OrderRecord.ok_fresh i o s) fun r₀ hg => ?_, ?_⟩
      · exact absurd (hnone.symm.trans hg) (fun e => nomatch e)
      · exact {
          record := by rintro _ ⟨⟩; exact Dict.get?_set_self _ _ _
          flying := trivial
          missing := fun _ e => nomatch e
          fresh := by
            rintro _ (⟨⟨⟩⟩ | e) _ hp
            · obtain ⟨⟨r₀, hg⟩, _⟩ := h.sound.posted o hp
              exact absurd (hnone.symm.trans hg) (fun e => nomatch e)
            · exact nomatch e }
  | @replace _ _ _ r' hrep =>
      obtain ⟨r₀, ht⟩ := hrep.record
      have hg := h.fits.record r₀ ht
      have hsound : Sound none w := hrep.unsaved ▸ h.sound
      obtain ⟨hterm, hok, ho, hs⟩ := hrep.ok ht (hsound.keyed _ _ hg).2 h.fits.flying
      refine ⟨hsound.store hok fun r₁ hg₁ => ?_, ?_⟩
      · rw [ho, hg] at hg₁
        cases hg₁
        exact hterm
      · exact {
          record := by rintro _ ⟨⟩; exact Dict.get?_set_self _ _ _
          flying := trivial
          missing := fun _ e => nomatch e
          fresh := by
            rintro _ (⟨⟨⟩⟩ | e) hp
            · exact absurd hp hs
            · exact nomatch e }
  | @append _ _ event r =>
      obtain ⟨hsound, hfits⟩ := h
      exact ⟨⟨hsound.keyed, hsound.savedKeyed, hsound.final, hsound.kept, hsound.posted,
          hsound.landed⟩, {
        record := by rintro _ ⟨⟩; exact hfits.record r rfl
        flying := trivial
        missing := fun _ e => nomatch e
        fresh := by
          rintro _ (e | ⟨⟨⟩⟩) hp
          · cases e
          · exact hfits.fresh r (Or.inl rfl) hp }⟩
  | @checkpoint _ _ r =>
      exact ⟨h.sound.checkpoint, {
        record := by rintro _ ⟨⟩; exact h.fits.record r rfl
        flying := trivial
        missing := fun _ e => nomatch e
        fresh := fun _ e => by rcases e with e | e <;> exact nomatch e }⟩
  | landed hr hn hl hreply =>
      refine h.posted hr ?_
      intro o ho
      obtain ⟨_, rfl⟩ := Exchange.land_eq_some hl
      exact (Exchange.landed_land.mp ho).imp_right Eq.symm
  | refused hr hn => exact h.posted hr fun o ho => Or.inl ho
  | noFill ht _ =>
      exact h.reconciled (fun _ e => nomatch e) rfl (by rintro _ ⟨⟩; rfl) ht (fun _ e => nomatch e)
  | fill ht _ _ =>
      exact h.reconciled (fun _ e => nomatch e) rfl (by rintro _ ⟨⟩; rfl) ht (fun _ e => nomatch e)
  | pending ht =>
      exact h.reconciled (fun _ e => nomatch e) rfl (by rintro _ ⟨⟩; rfl) ht (fun _ e => nomatch e)
  | raised ht =>
      exact h.reconciled (fun _ e => nomatch e) rfl (fun _ e => nomatch e) trivial
        (fun _ e => nomatch e)

theorem Base.env {e : Env} (h : Base t w) : Base t (w.env e) where
  sound := h.sound.env
  fits := {
    record := by simpa using h.fits.record
    flying := h.fits.flying
    missing := by simpa using h.fits.missing
    fresh := by simpa using h.fits.fresh }

/-! ## What comes before a POST -/

/-- A POST is next only after the fresh record was written, after `submit` found the
order PLACING, or after a reconcile found an UNKNOWN order unfilled. -/
theorem before_place {i : Intent} (hb : Base t w) (hs : Step v w a c t op t' w')
    (hp : (protocol c).AllowsHead t' (some (.place r i))) :
    .place r.originId ∉ w'.trace ∨
    (∃ i o s n r₀, c = .submit i o s n ∧ op = .get o ∧ w' = w ∧ r.originId = o ∧
      w.orders.get? o = some r₀ ∧ r₀.state = .placing ∧ (r₀.attempts : ℤ) < n) ∨
    (∃ i o s n r₀ symbol, c = .submit i o s n ∧ op = .reconcile r₀.handle symbol ∧
      r.originId = r₀.originId ∧ w.orders.get? r₀.originId = some r₀ ∧ r₀.state = .unknown ∧
      (r₀.attempts : ℤ) < n ∧ w' = w.asked (.unfilled r₀.originId) ∧
      ((a = .trades ∧ v.query w.exch r₀.handle = []) ∨ ∃ reason, a = .pending reason)) := by
  cases hp with
  | @placeFirst i o s n r₀ hstate hn =>
      cases hs with
      | found hg =>
          obtain ⟨ho, _⟩ := hb.sound.keyed _ _ hg
          exact Or.inr (Or.inl ⟨_, _, _, _, r₀, rfl, rfl, rfl, ho, hg, hstate, hn⟩)
      | checkpoint => exact Or.inl (hb.fits.fresh r₀ (Or.inr rfl) hstate)
  | @placeAgain i o s n r₀ hstate hn =>
      cases hs with
      | noFill _ hq =>
          exact Or.inr (Or.inr ⟨_, _, _, _, r₀, _, rfl, rfl, rfl, hb.fits.record r₀ rfl, hstate, hn,
            rfl, Or.inl ⟨rfl, hq⟩⟩)
      | pending _ =>
          exact Or.inr (Or.inr ⟨_, _, _, _, r₀, _, rfl, rfl, rfl, hb.fits.record r₀ rfl, hstate, hn,
            rfl, Or.inr ⟨_, rfl⟩⟩)

/-! ## The proof rule for the manager -/

/-- What a property of all runs has to show beyond the invariant: `I` between
commands, and `J` while one runs, with its turn and its next call. -/
structure Law (v : Venue) (G : Guard World Op Cmd Answer Env Unit) (I : World → Prop)
    (J : Turn → Option Op → World → Prop) : Prop where
  init : I {}
  enter : ∀ {w c h}, I w → (protocol c).AllowsHead .idle h → J .idle h w
  step : ∀ {w w' a c t op t' h}, Base t w → J t (some op) w → G.answer c w op a →
    Step v w a c t op t' w' → Base t' w' → (protocol c).AllowsHead t' h → J t' h w'
  finish : ∀ {w t h}, J t h w → I w
  envIdle : ∀ {w e}, I w → I (w.env e)
  envBusy : ∀ {w t h e}, J t h w → G.env w h e → J t h (w.env e)
  reboot : ∀ {w w' t}, Base t w → I w → w.reboot = some w' → I w'

variable {G : Guard World Op Cmd Answer Env Unit} {I : World → Prop}
  {J : Turn → Option Op → World → Prop}

theorem Law.cert (L : Law v G I J) :
    Host.Cert (host v) G protocol (fun _ => .idle) (fun _ => Ends) {}
      (fun w => Base .idle w ∧ I w) (fun _ t h w => Base t w ∧ J t h w) where
  keeps := entry_keeps v
  init := ⟨sound_fresh.idle, L.init⟩
  enter h _ hh := ⟨h.1, L.enter h.2 hh⟩
  answer h hal hg hx hh := by
    obtain ⟨hb, hj⟩ := h
    have hs := step_of_answer hal hx
    have hb' := hb.answer hs
    exact ⟨hb', L.step hb hj hg hs hb' hh⟩
  finish h hq := by
    obtain ⟨hb, hj⟩ := h
    have hsound : Sound none _ := hq ▸ hb.sound
    exact ⟨hsound.idle, L.finish hj⟩
  envIdle h _ he := by
    cases he
    exact ⟨h.1.env, L.envIdle h.2⟩
  envBusy h _ hg he := by
    cases he
    exact ⟨h.1.env, L.envBusy h.2 hg⟩
  crashIdle h _ hw := ⟨(h.1.sound.reboot hw).idle, L.reboot h.1 h.2 hw⟩
  crashBusy h _ hw := ⟨(h.1.sound.reboot hw).idle, L.reboot h.1 (L.finish h.2) hw⟩

/-- In every state a guarded run reaches, memory and disk are sound and `I` holds. -/
theorem Law.always (L : Law v G I J) {cf : Config World Op Ret Raised (List Outcome) Cmd}
    (hc : (host v).Reach G {} cf) : (∃ u, Sound u cf.world) ∧ I cf.world :=
  L.cert.always (R := fun w => (∃ u, Sound u w) ∧ I w) (fun _ h => ⟨⟨_, h.1.sound⟩, h.2⟩)
    (fun _ _ _ _ h => ⟨⟨_, h.1.sound⟩, L.finish h.2⟩) hc

end TreasuryForge.Orders

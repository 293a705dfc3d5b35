/-
# `Orders.Terminal` — what REJECTED and FILLED say about the exchange

The two terminal states are never revisited: `submit` replays them and `recover`
skips them.  So what they say has to be true when they are written, and stay true.

A REJECTED record says that no POST of its order landed.  The manager writes it on
every definitive error, also on a retry, where the error may be about the retry
alone (a duplicate id, no funds left) while the first POST rests at the exchange.

A FILLED record says what the order executed.  The manager writes it on the first
reconcile that sees a trade, with the trades seen by then, and an order that still
rests goes on trading.
-/
import TreasuryForge.Orders.Retry

namespace TreasuryForge.Orders

open Resume

variable {v : Venue} {w w' : World} {a : Answer} {c : Cmd} {t t' : Turn} {op : Op}

/-- A record of the order, in memory or on disk. -/
def World.Holds (w : World) (o : String) (r : OrderRecord) : Prop :=
  w.orders.get? o = some r ∨ w.saved o = some r

/-- A terminal record is what memory holds. -/
theorem Sound.held {u : Option String} {o : String} {r : OrderRecord} (h : Sound u w)
    (hr : w.Holds o r) (hs : r.state.terminal = true) : w.orders.get? o = some r := by
  rcases hr with hr | hr
  · exact hr
  · exact h.final o r hr hs

/-- A property of the records in a state: it survives a restart when it is about a
terminal state. -/
theorem reboot_records {s : OrderState} {P : String → OrderRecord → Exchange → Prop}
    (hs : s.terminal = true) (hb : Base t w) (hw : w.reboot = some w')
    (h : ∀ o r, w.orders.get? o = some r → r.state = s → P o r w.exch) :
    ∀ o r, w'.orders.get? o = some r → r.state = s → P o r w'.exch := by
  intro o r hg hr
  obtain ⟨hget, _, hexch, _⟩ := World.reboot_eq_some hw
  rw [hget] at hg
  rw [hexch]
  exact h o r (hb.sound.final o r hg (by rw [hr]; exact hs)) hr

/-- What a write can change: the record written, if it is in the state at all. -/
theorem store_records {s : OrderState} {P : String → OrderRecord → Prop} {r' : OrderRecord}
    (h : ∀ o r, w.orders.get? o = some r → r.state = s → P o r)
    (h' : r'.state = s → P r'.originId r') :
    ∀ o r, (w.store r').orders.get? o = some r → r.state = s → P o r := by
  intro o r hg hr
  have hg' : (w.orders.set r'.originId r').get? o = some r := hg
  rw [Dict.get?_set] at hg'
  split at hg'
  · next ho =>
      cases hg'
      rw [ho]
      exact h' hr
  · exact h o r hg' hr

/-- A POST writes a record in flight. -/
theorem post_records {s : OrderState} {P : String → OrderRecord → Prop} {r : OrderRecord}
    {x : Exchange} (hs : s.terminal = true) (hr : Ready t r)
    (h : ∀ o r', o ≠ r.originId → w.orders.get? o = some r' → r'.state = s → P o r') :
    ∀ o r', (w.posted r.attempt x).orders.get? o = some r' → r'.state = s → P o r' := by
  intro o r' hg hr'
  have hg' : (w.orders.set r.originId r.attempt).get? o = some r' := hg
  rw [Dict.get?_set] at hg'
  split at hg'
  · cases hg'
    have hstate : r.state = s := hr'
    rcases hr with ⟨_, hp⟩ | ⟨_, hp⟩ <;> rw [← hstate, hp] at hs <;> cases hs
  · next ho => exact h o r' ho hg' hr'

/-! ## A property of the records in a terminal state -/

/-- `P o r x` holds of every record `r` of `o` in the terminal state `s`, with `x` the
exchange: it holds when such a record may be written next, and neither a POST of
another order nor an exchange event ends it. -/
structure Settles (v : Venue) (G : Guard World Op Cmd Answer Env Unit) (s : OrderState)
    (P : String → OrderRecord → Exchange → Prop) : Prop where
  terminal : s.terminal = true
  inHand : ∀ {w w' a c t op t' r}, Base t w → G.answer c w op a → Step v w a c t op t' w' →
    Replaces t' r → r.state = s → P r.originId r w'.exch
  land : ∀ {o o' oid r x x'}, P o r x → x.land o' oid = some x' → o ≠ o' → P o r x'
  env : ∀ {o r x} {e : Env}, P o r x → P o r (x.amend e.oid e.act)

/-- The records in the state, and a record about to be written, have the property. -/
structure Recorded (s : OrderState) (P : String → OrderRecord → Exchange → Prop) (t : Turn)
    (w : World) : Prop where
  records : ∀ o r, w.orders.get? o = some r → r.state = s → P o r w.exch
  inHand : ∀ r, Replaces t r → r.state = s → P r.originId r w.exch

variable {G : Guard World Op Cmd Answer Env Unit} {s : OrderState}
  {P : String → OrderRecord → Exchange → Prop}

theorem Settles.records (S : Settles v G s P) (h : Recorded s P t w)
    (hs : Step v w a c t op t' w') :
    ∀ o r, w'.orders.get? o = some r → r.state = s → P o r w'.exch := by
  have hterm := S.terminal
  cases hs with
  | create =>
      refine store_records (P := fun o r => P o r w.exch) h.records fun hp => ?_
      rw [← hp] at hterm
      cases hterm
  | replace hrep => exact store_records h.records (h.inHand _ hrep)
  | @landed _ _ _ _ _ _ _ _ x _ hr _ hl _ =>
      exact post_records hterm hr fun o r ho hg hr' => S.land (h.records o r hg hr') hl ho
  | refused hr _ => exact post_records hterm hr fun o r _ hg hr' => h.records o r hg hr'
  | _ => exact h.records

theorem Settles.law (S : Settles v G s P) : Law v G
    (fun w => ∀ o r, w.orders.get? o = some r → r.state = s → P o r w.exch)
    (fun t _ w => Recorded s P t w) where
  init _ _ h := nomatch h
  enter h _ := ⟨h, fun _ e => nomatch e⟩
  step hb hj hg hs _ _ := ⟨S.records hj hs, fun _ hrep hr => S.inHand hb hg hs hrep hr⟩
  finish h := h.records
  envIdle h := by
    intro o r hg hr
    rw [World.orders_env] at hg
    rw [World.exch_env]
    exact S.env (h o r hg hr)
  envBusy h _ := by
    refine ⟨fun o r hg hr => ?_, fun r hrep hr => ?_⟩
    · rw [World.orders_env] at hg
      rw [World.exch_env]
      exact S.env (h.records o r hg hr)
    · rw [World.exch_env]
      exact S.env (h.inHand r hrep hr)
  reboot hb h hw := reboot_records S.terminal hb hw h

/-- In every state a guarded run reaches, every record in the state has the property. -/
theorem Settles.always (S : Settles v G s P)
    {cf : Config World Op Ret Raised (List Outcome) Cmd} (hc : (host v).Reach G {} cf)
    {o : String} {r : OrderRecord} (hr : cf.world.Holds o r) (hs : r.state = s) :
    P o r cf.world.exch := by
  obtain ⟨⟨u, hsound⟩, hrec⟩ := S.law.always hc
  have hterm : r.state.terminal = true := by rw [hs]; exact S.terminal
  exact hrec o r (hsound.held hr hterm) hs

/-! ## REJECTED -/

/-- The error a POST that did not land is answered with. -/
def Answer.refusal : Answer → Option Raised
  | .failed none e => some e
  | _ => none

/-- No POST of an order that landed before is answered with a definitive error. -/
def refusalGuard : Guard World Op Cmd Answer Env Unit where
  answer _ w op a := ∀ r ∈ op.posts, ∀ e ∈ a.refusal, e.definitive = true →
    ¬ w.exch.Landed r.originId

instance : refusalGuard.Checked where
  call _ _ := isTrue trivial
  answer _ _ _ _ := by unfold refusalGuard; infer_instance
  env _ _ _ := isTrue trivial
  crash _ _ := isTrue trivial

theorem rejected_settles : Settles v refusalGuard .rejected (fun o _ x => ¬ x.Landed o) where
  terminal := rfl
  inHand _ hg hs hrep hr := by
    cases hrep with
    | refuse hdef =>
        cases hs with
        | landed _ _ _ hreply =>
            rcases hreply with ⟨_, e⟩ | ⟨_, e, hnd⟩
            · cases e
            · cases e
              rw [Raised.definitive, hdef] at hnd
              cases hnd
        | @refused _ _ _ _ _ r _ _ _ => exact hg r.attempt rfl _ rfl hdef
    | _ => cases hr
  land h hl ho := by
    obtain ⟨_, rfl⟩ := Exchange.land_eq_some hl
    intro hl'
    rcases Exchange.landed_land.mp hl' with hl' | rfl
    · exact h hl'
    · exact ho rfl
  env h := by rwa [Exchange.landed_amend fun r => Env.act_originId _ r]

/-- In a run in which no landed order's later POST is refused, no order with a
REJECTED record ever landed. -/
theorem rejected_never_landed {cf : Config World Op Ret Raised (List Outcome) Cmd}
    (hc : (host v).Reach refusalGuard {} cf) {o : String} {r : OrderRecord}
    (hr : cf.world.Holds o r) (hs : r.state = .rejected) : ¬ cf.world.exch.Landed o :=
  rejected_settles.always hc hr hs

/-- What the exchange says to a second order with the id of a resting one. -/
def duplicate : Raised := .bitso ⟨.nonRetryable, "0312", "duplicate origin_id", 400⟩

/-- A new order refused outright: REJECTED, and not at the exchange. -/
theorem rejected_never_landed_refused : ∃ cf r, (host .bitso).Reach refusalGuard {} cf ∧
    cf.world.Holds "o" r ∧ r.state = .rejected ∧ ¬ cf.world.exch.Landed "o" := by
  obtain ⟨cf, hc, ht⟩ := (host .bitso).reach_of_run refusalGuard {}
    (newOrder ++ [.answer (.failed none duplicate), .answer .done])
    (fun cf => (cf.world.orders.get? "o").any fun r => r.state = .rejected) (by decide +kernel)
  obtain ⟨r, hr, hs⟩ := (Option.any_eq_true _ _).mp ht
  have hstate : r.state = .rejected := by simpa using hs
  exact ⟨cf, r, hc, Or.inl hr, hstate, rejected_never_landed hc (Or.inl hr) hstate⟩

/-- The first POST rests with its answer lost; the retry is refused as a duplicate of
it, and the record says REJECTED. -/
theorem rejected_while_resting : ∃ cf r, (host .bitso).Reach .any {} cf ∧
    cf.world.Holds "o" r ∧ r.state = .rejected ∧ cf.world.exch.Landed "o" ∧
      cf.world.exch.Active "o" := by
  obtain ⟨cf, hc, ht⟩ := (host .bitso).reach_of_run .any {}
    (lostAnswer ++ [.answer .trades, .answer (.failed none duplicate), .answer .done])
    (fun cf => cf.world.exch.Active "o" ∧
      (cf.world.orders.get? "o").any (fun r => r.state = .rejected) = true) (by decide +kernel)
  have ht' := of_decide_eq_true ht
  obtain ⟨r, hr, hs⟩ := (Option.any_eq_true _ _).mp ht'.2
  exact ⟨cf, r, hc, Or.inl hr, by simpa using hs, Exchange.landed_of_active ht'.1, ht'.1⟩

/-! ## FILLED -/

/-- The fill of the record is the total of these trades. -/
def Totals (r : OrderRecord) (ts : List Trade) : Prop := ∃ d, r.fill = some d ∧ Reports d ts

/-- When a reconcile sees trades, it sees all trades of its order, and no order with
its id is resting any more. -/
def completeGuard (v : Venue) : Guard World Op Cmd Answer Env Unit where
  answer _ w op a := ∀ h ∈ op.reconciles, a = .trades → v.query w.exch h ≠ [] →
    v.query w.exch h = w.exch.tradesOf h.originId ∧ ¬ w.exch.Active h.originId

instance : (completeGuard v).Checked where
  call _ _ := isTrue trivial
  answer _ _ _ _ := by unfold completeGuard; infer_instance
  env _ _ _ := isTrue trivial
  crash _ _ := isTrue trivial

/-- An exchange event changes nothing for an order with nothing resting. -/
theorem of_amend_inactive {x : Exchange} {o : String} {e : Env} (h : ¬ x.Active o) :
    (x.amend e.oid e.act).of o = x.of o := by
  refine Exchange.of_amend_of_ne (fun r => Env.act_originId e r) fun r hr _ => ?_
  obtain ⟨hm, ho⟩ := Exchange.mem_of.mp hr
  by_contra ha
  exact h ⟨r, hm, ho, by simpa using ha⟩

theorem active_iff {x : Exchange} {o : String} :
    x.Active o ↔ ∃ r ∈ x.of o, r.active = true := by
  simp only [Exchange.Active, Exchange.mem_of, and_assoc]

/-- The trades of `o` are these totals, for good. -/
def Final (o : String) (r : OrderRecord) (x : Exchange) : Prop :=
  Totals r (x.tradesOf o) ∧ ¬ x.Active o

/-- `Final` looks at the orders of `o` only. -/
theorem Final.congr {o : String} {r : OrderRecord} {x x' : Exchange} (h : Final o r x)
    (hx : x'.of o = x.of o) : Final o r x' := by
  obtain ⟨ht, ha⟩ := h
  rw [active_iff] at ha
  refine ⟨?_, ?_⟩
  · rw [Exchange.tradesOf, hx]
    exact ht
  · rw [active_iff, hx]
    exact ha

theorem filled_settles : Settles v (completeGuard v) .filled Final where
  terminal := rfl
  inHand _ hg hs hrep hr := by
    cases hrep with
    | fill =>
        cases hs with
        | fill _ hne hrep =>
            obtain ⟨hall, hinactive⟩ := hg _ rfl rfl hne
            rw [hall] at hrep
            exact ⟨⟨_, rfl, hrep⟩, hinactive⟩
    | _ => cases hr
  land h hl ho := by
    obtain ⟨_, rfl⟩ := Exchange.land_eq_some hl
    refine h.congr ?_
    simp [Exchange.of, ho.symm]
  env h := h.congr (of_amend_inactive h.2)

/-- In a run in which a reconcile that sees trades sees all there will ever be, the
fill of every FILLED record is the total of what its order executed. -/
theorem filled_complete {cf : Config World Op Ret Raised (List Outcome) Cmd}
    (hc : (host v).Reach (completeGuard v) {} cf) {o : String} {r : OrderRecord}
    (hr : cf.world.Holds o r) (hs : r.state = .filled) :
    Totals r (cf.world.exch.tradesOf o) :=
  (filled_settles.always hc hr hs).1

def firstPart : Trade := ⟨1, 2, 100, 1 / 10, by decide⟩

def secondPart : Trade := ⟨2, 3, 101, 1 / 10, by decide⟩

/-- `submit` up to the reconcile, the order resting under `x`. -/
def resting : List (Event Cmd Answer Env Unit) :=
  newOrder ++ [.answer (.accepted "x" true "btc"), .answer .done, .answer .done, .answer .done]

/-- Two parts, the second of them the last, and then the reconcile. -/
theorem filled_complete_two_parts : ∃ cf r, (host .bitso).Reach (completeGuard .bitso) {} cf ∧
    cf.world.Holds "o" r ∧ r.state = .filled ∧ Totals r (cf.world.exch.tradesOf "o") := by
  obtain ⟨cf, hc, ht⟩ := (host .bitso).reach_of_run (completeGuard .bitso) {}
    (resting ++ [.env (.execute "x" firstPart false), .env (.execute "x" secondPart true),
      .answer .trades, .answer .done])
    (fun cf => (cf.world.orders.get? "o").any fun r => r.state = .filled) (by decide +kernel)
  obtain ⟨r, hr, hs⟩ := (Option.any_eq_true _ _).mp ht
  have hstate : r.state = .filled := by simpa using hs
  exact ⟨cf, r, hc, Or.inl hr, hstate, filled_complete hc (Or.inl hr) hstate⟩

/-- The reconcile comes between the two parts: FILLED with the first one alone. -/
theorem filled_with_first_part : ∃ cf r, (host .bitso).Reach .any {} cf ∧
    cf.world.Holds "o" r ∧ r.state = .filled ∧ ¬ Totals r (cf.world.exch.tradesOf "o") := by
  obtain ⟨cf, hc, ht⟩ := (host .bitso).reach_of_run .any {}
    (resting ++ [.env (.execute "x" firstPart false), .answer .trades, .answer .done,
      .env (.execute "x" secondPart true)])
    (fun cf => (cf.world.orders.get? "o").any (fun r => r.state = .filled ∧
      r.fill.map (fun d => d.baseAmount) = some 2) = true ∧
      totalSize (cf.world.exch.tradesOf "o") = 5) (by decide +kernel)
  obtain ⟨hrec, htotal⟩ := of_decide_eq_true ht
  obtain ⟨r, hr, hs⟩ := (Option.any_eq_true _ _).mp hrec
  obtain ⟨hstate, hbase⟩ := of_decide_eq_true hs
  refine ⟨cf, r, hc, Or.inl hr, hstate, ?_⟩
  rintro ⟨d, hd, hrep⟩
  rw [hd] at hbase
  have htwo : d.baseAmount = 2 := by simpa using hbase
  have hfive := hrep.base
  rw [htwo, htotal] at hfive
  norm_num at hfive

end TreasuryForge.Orders

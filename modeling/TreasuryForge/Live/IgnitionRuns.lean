/-
# `Live.IgnitionRuns` — what any run leaves in the ledger of ignitions

Detectors one after the other, killed or not, with runs of `mark_pick` between their calls.
The ledger they leave has grown under `Legal` (`grown_of_reach`), and that alone says how the
events of one ignition, and the ignitions of one coin, stand in it.

    ledger_of_reach      one ignition for an id, at most one outcome, and that behind it;
                         two ignitions of a coin a cooldown apart, the first resolved between them
    picks_of_reach       a pick was chosen while its ignition was open and the latest of its coin
-/
import TreasuryForge.Live.Ignition

namespace TreasuryForge.Ignition

open Resume Protocol EventLog

variable {c : ℤ}

/-! ## The memory of a pass and the ledger -/

def Rec.unmarked (r : Rec) : Rec := { r with picked := false }

/-- The same records, up to the marks. -/
def Agree (st st' : State) : Prop :=
  ∀ id, (st.get? id).map Rec.unmarked = (st'.get? id).map Rec.unmarked

namespace Agree

variable {st st' : State}

theorem refl (st : State) : Agree st st := fun _ => rfl

theorem symm (h : Agree st st') : Agree st' st := fun id => (h id).symm

/-- A record of one is a record of the other, up to its mark. -/
theorem get? (h : Agree st st') {id : String} {r : Rec} (hr : st.get? id = some r) :
    ∃ r', st'.get? id = some r' ∧ r'.unmarked = r.unmarked := by
  have hid := h id
  rw [hr] at hid
  exact Option.map_eq_some_iff.mp hid.symm

/-- An event does to both the same. -/
theorem apply (h : Agree st st') (ev : Ev) : Agree (apply st ev) (Ignition.apply st' ev) := by
  have hmap : ∀ (f g : Rec → Rec), (∀ r, (f r).unmarked = g r.unmarked) → ∀ id id',
      (if id' = id then (st.get? id).map f else st.get? id').map Rec.unmarked =
        (if id' = id then (st'.get? id).map f else st'.get? id').map Rec.unmarked := by
    intro f g hfg id id'
    have hcomp : ∀ o : Option Rec, (o.map f).map Rec.unmarked = (o.map Rec.unmarked).map g := by
      intro o
      rw [Option.map_map, Option.map_map]
      exact congrArg (o.map ·) (funext hfg)
    split
    · rw [hcomp, hcomp, h id]
    · exact h id'
  intro id'
  cases ev with
  | ignition id ts coin entry signalRet =>
      rw [get?_ignition, get?_ignition]
      split
      · rfl
      · exact h id'
  | pick id ts =>
      rw [get?_pick, get?_pick]
      exact hmap ({ · with picked := true }) (fun r => r) (fun _ => rfl) id id'
  | resolved id ts x =>
      rw [get?_resolved, get?_resolved]
      exact hmap _ ({ · with status := .resolved, realized := some x }) (fun _ => rfl) id id'

/-- A pick changes no more than marks. -/
theorem pick (h : Agree st st') (id : String) (ts : ℕ) :
    Agree st (Ignition.apply st' (.pick id ts)) := by
  intro id'
  rw [get?_pick]
  split
  · next hid =>
      rw [hid, h id, Option.map_map]
      rfl
  · exact h id'

/-- What the memory of a pass allows, the ledger allows. -/
theorem allows (h : Agree st st') {ev : Ev} (hev : Allows c st ev) : Allows c st' ev := by
  cases hev with
  | ignition hold =>
      refine .ignition fun id r hr hcoin => ?_
      obtain ⟨r', hr', hsame⟩ := h.symm.get? hr
      obtain ⟨hc, ht, hs⟩ : r'.coin = r.coin ∧ r'.ts = r.ts ∧ r'.status = r.status := by
        cases r
        cases r'
        cases hsame
        exact ⟨rfl, rfl, rfl⟩
      rw [← hs, ← ht]
      exact hold id r' hr' (hc.trans hcoin)
  | @resolved id r _ _ hr hopen =>
      obtain ⟨r', hr', hsame⟩ := h.get? hr
      refine .resolved hr' ?_
      have hs : r'.status = r.status := by
        cases r
        cases r'
        cases hsame
        rfl
      exact hs.trans hopen

end Agree

/-! ## Every run -/

/-- The choice was made from the beginning of this ledger that it says. -/
def Choice.MadeFrom (choice : Choice) (ledger : List Ev) : Prop :=
  choice.seen ≤ ledger.length ∧
    choose (state (ledger.take choice.seen)) choice.coin = some choice.id

/-- A grown ledger, and picks, under way or marked in it, that were chosen from a beginning of
it. -/
structure Kept (c : ℤ) (w : World) : Prop where
  grown : Grown (Legal c) w.ledger
  pickers : ∀ choice ∈ w.pickers, choice.MadeFrom w.ledger
  marks : ∀ k id ts, w.ledger[k]? = some (.pick id ts) →
    ∃ choice, w.marks.get? k = some choice ∧ choice.id = id ∧ choice.MadeFrom (w.ledger.take k)

/-- What was chosen from a beginning of a ledger was chosen from the same beginning of a longer
one. -/
theorem Choice.MadeFrom.append {ledger : List Ev} {choice : Choice} (h : choice.MadeFrom ledger)
    (more : List Ev) : choice.MadeFrom (ledger ++ more) := by
  obtain ⟨hle, hchoose⟩ := h
  constructor
  · rw [List.length_append]
    exact Nat.le_add_right_of_le hle
  · rw [List.take_append_of_le_length hle]
    exact hchoose

/-- An event more, and a choice that is noted at its place. -/
theorem Kept.append {w : World} (h : Kept c w) {ev : Ev} (hev : Legal c w.ledger ev)
    {pickers : List Choice} {marks : Dict ℕ Choice} (hp : ∀ choice ∈ pickers, choice ∈ w.pickers)
    (hmarks : ∀ k < w.ledger.length, marks.get? k = w.marks.get? k)
    (hlast : ∀ id ts, ev = .pick id ts → ∃ choice, marks.get? w.ledger.length = some choice ∧
      choice.id = id ∧ choice.MadeFrom w.ledger) :
    Kept c ⟨w.ledger ++ [ev], pickers, marks⟩ := by
  refine ⟨h.grown.snoc hev, fun choice hmem => (h.pickers choice (hp choice hmem)).append [ev], ?_⟩
  intro k id ts hk
  rcases lt_trichotomy k w.ledger.length with hlt | rfl | hgt
  · rw [List.getElem?_append_left hlt] at hk
    show ∃ choice : Choice, marks.get? k = _ ∧ _ ∧ choice.MadeFrom ((w.ledger ++ [ev]).take k)
    rw [hmarks k hlt, List.take_append_of_le_length hlt.le]
    exact h.marks k id ts hk
  · show ∃ choice : Choice, marks.get? _ = _ ∧ _ ∧ choice.MadeFrom ((w.ledger ++ [ev]).take _)
    rw [List.take_left]
    exact hlast id ts (by simpa using hk)
  · have hout : (w.ledger ++ [ev])[k]? = none :=
      List.getElem?_eq_none (by rw [List.length_append, List.length_singleton]; omega)
    rw [hout] at hk
    cases hk

/-- What a picker does keeps the ledger grown, and the memory of a pass in agreement with it. -/
theorem Kept.move {w w' : World} (h : Kept c w) {m : Picker} (hm : w.move m = some w') :
    Kept c w' ∧ ∀ st, Agree st (state w.ledger) → Agree st (state w'.ledger) := by
  cases m with
  | choose coin =>
      obtain ⟨id, hid, rfl⟩ := Option.map_eq_some_iff.mp hm
      refine ⟨⟨h.grown, fun choice hmem => ?_, h.marks⟩, fun _ hst => hst⟩
      rcases List.mem_append.mp hmem with hold | hnew
      · exact h.pickers choice hold
      · rw [List.mem_singleton.mp hnew]
        refine ⟨le_rfl, ?_⟩
        rw [List.take_length]
        exact hid
  | mark k ts =>
      obtain ⟨choice, hchoice, rfl⟩ := Option.map_eq_some_iff.mp hm
      have hmade := h.pickers choice (List.mem_of_getElem? hchoice)
      refine ⟨h.append (.picker hmade.2) (fun _ => List.mem_of_mem_eraseIdx) ?_ ?_,
        fun st hst => ?_⟩
      · intro k hk
        exact Dict.get?_set_of_ne _ _ hk.ne
      · rintro id _ ⟨⟩
        refine ⟨choice, ?_, rfl, hmade⟩
        rw [Dict.get?_set, if_pos rfl]
      · show Agree st (state (w.ledger ++ [.pick choice.id ts]))
        rw [state_snoc]
        exact hst.pick choice.id ts
  | quit k =>
      cases hm
      refine ⟨⟨h.grown, fun choice hmem => ?_, h.marks⟩, fun _ hst => hst⟩
      exact h.pickers choice (List.mem_of_mem_eraseIdx hmem)

/-- The assertion of a busy desk: its pass remembers the ledger, up to marks. -/
def Remembers (c : ℤ) (memory : Option State) (w : World) : Prop :=
  Kept c w ∧ ∀ st, memory = some st → Agree st (state w.ledger)

/-- A call of a pass keeps it. -/
theorem Remembers.exec {w w' : World} {memory : Option State} {op : Op} {a : Answer} {r : Ret op}
    (h : Remembers c memory w) (hallowed : (passes c).allowed memory op)
    (hx : w.exec op a = some (r, w')) : Remembers c ((passes c).next memory op r) w' := by
  obtain ⟨hkept, hagree⟩ := h
  cases op with
  | readLedger =>
      cases a <;> cases hx
      refine ⟨hkept, ?_⟩
      rintro st ⟨⟩
      exact Agree.refl _
  | time => cases a <;> cases hx; exact ⟨hkept, hagree⟩
  | recent1h _ _ => cases a <;> cases hx; exact ⟨hkept, hagree⟩
  | pathSince _ _ => cases a <;> cases hx; exact ⟨hkept, hagree⟩
  | append ev =>
      cases a <;> cases hx
      obtain ⟨st, rfl, hev⟩ := hallowed
      refine ⟨hkept.append (.detector ((hagree st rfl).allows hev)) (fun _ => id)
        (fun _ _ => rfl) ?_, ?_⟩
      · -- the detector appends no picks
        rintro id ts rfl
        cases hev
      rintro st' ⟨⟩
      show Agree _ (state (w.ledger ++ [ev]))
      rw [state_snoc]
      exact (hagree st rfl).apply ev

theorem desk_cert (c : ℤ) : Host.Cert (desk c) .any (fun _ => passes c) (fun _ => none)
    (fun _ _ _ => True) {} (Kept c) (fun _ memory _ w => Remembers c memory w) where
  keeps := onePass_keeps
  init := ⟨.nil, fun _ hmem => absurd hmem List.not_mem_nil, fun _ _ _ hk => by cases hk⟩
  enter h _ _ := ⟨h, fun _ hst => by cases hst⟩
  answer h hallowed _ hx _ := h.exec hallowed hx
  finish h _ := h.1
  envIdle h _ hm := (h.move hm).1
  envBusy h _ _ hm :=
    ⟨(h.1.move hm).1, fun st hst => (h.1.move hm).2 st (h.2 st hst)⟩
  crashIdle h _ hb := by
    cases hb
    exact h
  crashBusy h _ hb := by
    cases hb
    exact h.1

theorem kept_of_reach {cf : Config World Op Ret String (ℕ × ℕ) (Launch c)}
    (hc : (desk c).Reach .any {} cf) : Kept c cf.world :=
  (desk_cert c).always (fun _ h => h) (fun _ _ _ _ h => h.1) hc

theorem grown_of_reach {cf : Config World Op Ret String (ℕ × ℕ) (Launch c)}
    (hc : (desk c).Reach .any {} cf) : Grown (Legal c) cf.world.ledger :=
  (kept_of_reach hc).grown

/-! ## A grown ledger -/

section Snoc
variable (ledger : List Ev) (id id' : String)

theorem get?_snoc_ignition (ts : ℕ) (coin : String) (entry signalRet : ℚ) :
    (state (ledger ++ [.ignition id ts coin entry signalRet])).get? id' =
      if id' = id then some { coin, ts, entry, signalRet } else (state ledger).get? id' := by
  rw [state_snoc, get?_ignition]

theorem get?_snoc_pick (ts : ℕ) : (state (ledger ++ [.pick id ts])).get? id' =
    if id' = id then ((state ledger).get? id).map ({ · with picked := true })
      else (state ledger).get? id' := by
  rw [state_snoc, get?_pick]

theorem get?_snoc_resolved (ts : ℕ) (x : ℚ) : (state (ledger ++ [.resolved id ts x])).get? id' =
    if id' = id then
      ((state ledger).get? id).map ({ · with status := .resolved, realized := some x })
      else (state ledger).get? id' := by
  rw [state_snoc, get?_resolved]

end Snoc

/-- The ids of the ignitions, in order. -/
def ignited (ledger : List Ev) : List String :=
  ledger.filterMap fun
    | .ignition id _ _ _ _ => some id
    | _ => none

/-- The ids of the outcomes, in order. -/
def booked (ledger : List Ev) : List String :=
  ledger.filterMap fun
    | .resolved id _ _ => some id
    | _ => none

/-- How the records of a ledger go with its events. -/
structure Filed (ledger : List Ev) : Prop where
  named : ∀ {id r}, (state ledger).get? id = some r → id = makeId r.coin r.ts
  known : ∀ id, id ∈ ignited ledger ↔ ∃ r, (state ledger).get? id = some r
  closed : ∀ {id r}, (state ledger).get? id = some r → (r.status = .resolved ↔ id ∈ booked ledger)
  behind : ∀ id ∈ booked ledger, id ∈ ignited ledger
  once : (ignited ledger).Nodup
  final : (booked ledger).Nodup

theorem ignited_append (xs ys : List Ev) : ignited (xs ++ ys) = ignited xs ++ ignited ys :=
  List.filterMap_append ..

theorem booked_append (xs ys : List Ev) : booked (xs ++ ys) = booked xs ++ booked ys :=
  List.filterMap_append ..

theorem nodup_snoc {xs : List String} {x : String} (h : xs.Nodup) (hx : x ∉ xs) :
    (xs ++ [x]).Nodup := by
  rw [List.nodup_append]
  refine ⟨h, List.nodup_singleton x, ?_⟩
  rintro a ha b hb rfl
  rw [List.mem_singleton] at hb
  exact hx (hb ▸ ha)

/-- An allowed ignition is of an id that no record has: its own coin was last flagged a cooldown
ago. -/
theorem Filed.fresh {ledger : List Ev} (h : Filed ledger) (hc : 0 < c) {ts : ℕ} {coin : String}
    (hold : ∀ id r, (state ledger).get? id = some r → r.coin = coin →
      r.status = .resolved ∧ c * 3600 ≤ (ts : ℤ) - r.ts) :
    (state ledger).get? (makeId coin ts) = none := by
  cases hget : (state ledger).get? (makeId coin ts) with
  | none => rfl
  | some r =>
      obtain ⟨hcoin, hts⟩ := makeId_inj (h.named hget)
      have hage := (hold _ r hget hcoin.symm).2
      rw [hts] at hage
      omega

/-- A change of records that leaves their coins and times leaves the ids in order. -/
theorem Filed.relabel {ledger : List Ev} (h : Filed ledger) {ev : Ev} {id : String} {f : Rec → Rec}
    (hget : ∀ id', (state (ledger ++ [ev])).get? id' =
      if id' = id then ((state ledger).get? id).map f else (state ledger).get? id')
    (hcoin : ∀ r, (f r).coin = r.coin) (hts : ∀ r, (f r).ts = r.ts) (hign : ignited [ev] = []) :
    (∀ {id r}, (state (ledger ++ [ev])).get? id = some r → id = makeId r.coin r.ts) ∧
    (∀ id, id ∈ ignited (ledger ++ [ev]) ↔ ∃ r, (state (ledger ++ [ev])).get? id = some r) := by
  constructor
  · intro id' r hr
    rw [hget] at hr
    split at hr
    · next hid =>
        obtain ⟨r₀, hr₀, rfl⟩ := Option.map_eq_some_iff.mp hr
        rw [hcoin, hts, hid]
        exact h.named hr₀
    · exact h.named hr
  · intro id'
    rw [ignited_append, hign, List.append_nil, h.known, hget]
    split
    · next hid =>
        subst hid
        constructor
        · rintro ⟨r, hr⟩
          exact ⟨f r, by rw [hr]; rfl⟩
        · rintro ⟨r, hr⟩
          obtain ⟨r₀, hr₀, -⟩ := Option.map_eq_some_iff.mp hr
          exact ⟨r₀, hr₀⟩
    · rfl

theorem Filed.snoc (hc : 0 < c) {ledger : List Ev} {ev : Ev} (h : Filed ledger)
    (hev : Legal c ledger ev) : Filed (ledger ++ [ev]) := by
  -- a pick touches marks only, whatever it was chosen from
  have hpick : ∀ id ts, Filed (ledger ++ [.pick id ts]) := by
    intro id ts
    have hget := fun id' => get?_snoc_pick ledger id id' ts
    obtain ⟨hnamed, hknown⟩ := h.relabel hget (fun _ => rfl) (fun _ => rfl) rfl
    have hign : ignited (ledger ++ [.pick id ts]) = ignited ledger := by
      rw [ignited_append]
      exact List.append_nil _
    have hbook : booked (ledger ++ [.pick id ts]) = booked ledger := by
      rw [booked_append]
      exact List.append_nil _
    refine ⟨hnamed, hknown, ?_, ?_, ?_, ?_⟩
    · intro id' r hr
      rw [hbook]
      rw [hget] at hr
      split at hr
      · next hid =>
          obtain ⟨r₀, hr₀, rfl⟩ := Option.map_eq_some_iff.mp hr
          rw [hid]
          show r₀.status = .resolved ↔ _
          exact h.closed hr₀
      · exact h.closed hr
    · rw [hbook, hign]
      exact h.behind
    · rw [hign]
      exact h.once
    · rw [hbook]
      exact h.final
  cases hev with
  | picker hchoose => exact hpick _ _
  | detector hallows =>
      cases hallows with
      | @ignition ts coin entry signalRet hold =>
          have hnone := h.fresh hc hold
          have hget := fun id' =>
            get?_snoc_ignition ledger (makeId coin ts) id' ts coin entry signalRet
          have hnew : makeId coin ts ∉ ignited ledger := by
            intro hmem
            obtain ⟨r, hr⟩ := (h.known _).mp hmem
            rw [hnone] at hr
            cases hr
          have hign : ignited (ledger ++ [.ignition (makeId coin ts) ts coin entry signalRet]) =
              ignited ledger ++ [makeId coin ts] := ignited_append ..
          have hbook : booked (ledger ++ [.ignition (makeId coin ts) ts coin entry signalRet]) =
              booked ledger := by
            rw [booked_append]
            exact List.append_nil _
          refine ⟨?_, ?_, ?_, ?_, ?_, ?_⟩
          · intro id' r hr
            rw [hget] at hr
            split at hr
            · next hid =>
                cases hr
                exact hid
            · exact h.named hr
          · intro id'
            rw [hign, hget, List.mem_append, List.mem_singleton]
            split
            · next hid => exact iff_of_true (Or.inr hid) ⟨_, rfl⟩
            · next hid => rw [or_iff_left hid, h.known]
          · intro id' r hr
            rw [hbook]
            rw [hget] at hr
            split at hr
            · next hid =>
                cases hr
                refine iff_of_false (by simp) fun hmem => hnew ?_
                rw [← hid]
                exact h.behind id' hmem
            · exact h.closed hr
          · rw [hbook, hign]
            exact fun id' hmem => List.mem_append_left _ (h.behind id' hmem)
          · rw [hign]
            exact nodup_snoc h.once hnew
          · rw [hbook]
            exact h.final
      | @resolved id r₀ ts x hr₀ hopen =>
          have hget := fun id' => get?_snoc_resolved ledger id id' ts x
          obtain ⟨hnamed, hknown⟩ := h.relabel hget (fun _ => rfl) (fun _ => rfl) rfl
          have hign : ignited (ledger ++ [.resolved id ts x]) = ignited ledger := by
            rw [ignited_append]
            exact List.append_nil _
          have hbook : booked (ledger ++ [.resolved id ts x]) = booked ledger ++ [id] :=
            booked_append ..
          have hnot : id ∉ booked ledger := by
            intro hmem
            have hres := (h.closed hr₀).mpr hmem
            rw [hopen] at hres
            cases hres
          refine ⟨hnamed, hknown, ?_, ?_, ?_, ?_⟩
          · intro id' r hr
            rw [hbook, List.mem_append, List.mem_singleton]
            rw [hget] at hr
            split at hr
            · next hid =>
                obtain ⟨_, -, rfl⟩ := Option.map_eq_some_iff.mp hr
                exact iff_of_true rfl (Or.inr hid)
            · next hid => rw [or_iff_left hid, h.closed hr]
          · rw [hbook, hign]
            intro id' hmem
            rcases List.mem_append.mp hmem with hold | hlast
            · exact h.behind id' hold
            · rw [List.mem_singleton.mp hlast]
              exact (h.known id).mpr ⟨r₀, hr₀⟩
          · rw [hign]
            exact h.once
          · rw [hbook]
            exact nodup_snoc h.final hnot

theorem filed_nil : Filed [] where
  named hr := by cases hr
  known id := iff_of_false List.not_mem_nil fun ⟨_, hr⟩ => by cases hr
  closed hr := by cases hr
  behind _ hmem := hmem
  once := List.nodup_nil
  final := List.nodup_nil

theorem filed (hc : 0 < c) {ledger : List Ev} (h : Grown (Legal c) ledger) : Filed ledger :=
  h.keeps filed_nil fun _ hfiled hev => hfiled.snoc hc hev

/-! ## What the ledger says -/

theorem mem_ignited_cons (xs ys : List Ev) {id : String} {ts : ℕ} {coin : String} {e s : ℚ} :
    id ∈ ignited (xs ++ .ignition id ts coin e s :: ys) := by
  rw [ignited_append]
  exact List.mem_append_right _ List.mem_cons_self

/-- The record of an ignition has its coin and its time. -/
theorem record_of_ignition (hc : 0 < c) {xs ys : List Ev} {id : String} {ts : ℕ} {coin : String}
    {e s : ℚ} (h : Grown (Legal c) (xs ++ .ignition id ts coin e s :: ys)) :
    ∃ r, (state (xs ++ .ignition id ts coin e s :: ys)).get? id = some r ∧
      r.coin = coin ∧ r.ts = ts := by
  have hfiled := filed hc h
  obtain ⟨r, hr⟩ := (hfiled.known id).mp (mem_ignited_cons xs ys)
  have hid : id = makeId coin ts := by
    obtain ⟨-, hlegal⟩ := h.split
    cases hlegal with
    | detector hallows =>
        cases hallows
        rfl
  obtain ⟨hcoin, hts⟩ := makeId_inj (hid.symm.trans (hfiled.named hr))
  exact ⟨r, hr, hcoin.symm, hts.symm⟩

/-- Between two ignitions of a coin the first is resolved, and a cooldown passes. -/
theorem apart_of_grown (hc : 0 < c) {xs ys zs : List Ev} {id id' : String} {ts ts' : ℕ}
    {coin : String} {e e' s s' : ℚ}
    (h : Grown (Legal c)
      (xs ++ .ignition id ts coin e s :: ys ++ .ignition id' ts' coin e' s' :: zs)) :
    c * 3600 ≤ (ts' : ℤ) - ts ∧ id ∈ booked ys := by
  obtain ⟨hfirst, hsecond⟩ := h.split
  have hfiled := filed hc hfirst
  obtain ⟨r, hr, hcoin, hts⟩ := record_of_ignition hc hfirst
  cases hsecond with
  | detector hallows =>
      cases hallows with
      | ignition hold =>
          obtain ⟨hstatus, hage⟩ := hold id r hr hcoin
          refine ⟨by rw [← hts]; exact hage, ?_⟩
          have hbooked := (hfiled.closed hr).mp hstatus
          rw [booked_append] at hbooked
          rcases List.mem_append.mp hbooked with hbefore | hafter
          · -- an outcome has its ignition before it, and this id is ignited only once
            have hdouble := hfiled.once
            rw [ignited_append] at hdouble
            exact absurd rfl ((List.nodup_append.mp hdouble).2.2 id
              ((filed hc hfirst.split.1).behind id hbefore) id List.mem_cons_self)
          · exact hafter

/-- In any run of detectors one after the other, each started with every coin once and at least `c`
hours of cooldown, with runs of `mark_pick` between their calls, and whatever is killed: an id is
ignited once and resolved at most once, behind its ignition; two ignitions of one coin are `c` hours
apart, and the outcome of the first stands between them. -/
theorem ledger_of_reach (hc : 0 < c) {cf : Config World Op Ret String (ℕ × ℕ) (Launch c)}
    (h : (desk c).Reach .any {} cf) :
    (ignited cf.world.ledger).Nodup ∧ (booked cf.world.ledger).Nodup ∧
    (∀ xs ys id ts x, cf.world.ledger = xs ++ .resolved id ts x :: ys → id ∈ ignited xs) ∧
    (∀ xs ys zs id id' (ts ts' : ℕ) coin e e' s s',
      cf.world.ledger = xs ++ .ignition id ts coin e s :: ys ++ .ignition id' ts' coin e' s' :: zs →
      c * 3600 ≤ (ts' : ℤ) - ts ∧ id ∈ booked ys) := by
  have hgrown := grown_of_reach h
  have hfiled := filed hc hgrown
  refine ⟨hfiled.once, hfiled.final, ?_, ?_⟩
  · intro xs ys id ts x hcut
    rw [hcut] at hgrown
    obtain ⟨hbefore, hlegal⟩ := hgrown.split
    cases hlegal with
    | detector hallows =>
        cases hallows with
        | resolved hr _ => exact ((filed hc hbefore).known id).mpr ⟨_, hr⟩
  · intro xs ys zs id id' ts ts' coin e e' s s' hcut
    rw [hcut] at hgrown
    exact apart_of_grown hc hgrown

/-- A coin that jumps, is resolved while somebody makes up his mind, and jumps again. -/
def twoJumps : List (Event (Launch 1) Answer Picker Unit) :=
  let launch : Launch 1 :=
    { p := { enter1m := 15 / 100 }, cooldownH := 1, resolveH := 1, coins := ["ACX"]
      distinct := List.nodup_singleton _, cooled := le_rfl }
  let jump : List Bar := [⟨100, 100, 100⟩, ⟨120, 100, 120⟩, ⟨120, 120, 120⟩]
  let path : List Bar := [⟨130, 119, 125⟩, ⟨130, 119, 126⟩]
  [.call launch, .answer .plain, .answer (.time 0), .answer (.bars jump), .answer .plain,
    .answer (.time 0), .done,
    .call launch, .env (.choose "ACX"), .answer .plain, .answer (.time 3600), .answer (.time 3600),
    .answer (.bars path), .answer .plain, .env (.mark 0 3601), .crash (),
    .call launch, .answer .plain, .answer (.time 7200), .answer (.bars jump), .answer .plain]

/-- The ledger after it. -/
def twoJumpsLedger : List Ev :=
  [.ignition "ACX-0" 0 "ACX" 120 (1 / 5), .resolved "ACX-0" 3600 (387 / 10000),
    .pick "ACX-0" 3601, .ignition "ACX-7200" 7200 "ACX" 120 (1 / 5)]

theorem reach_twoJumps : ∃ cf, (desk 1).Reach .any {} cf ∧ cf.world.ledger = twoJumpsLedger := by
  obtain ⟨cf, hc, ht⟩ := (desk 1).reach_of_run .any {} twoJumps
    (fun cf => cf.world.ledger = twoJumpsLedger) (by decide +kernel)
  exact ⟨cf, hc, by simpa using ht⟩

/-- Two ignitions of a coin, an hour's cooldown apart. -/
theorem second_jump_apart : ∃ cf, (desk 1).Reach .any {} cf ∧
    (ignited cf.world.ledger).Nodup ∧ "ACX-0" ∈ booked [Ev.resolved "ACX-0" 3600 (387 / 10000),
      .pick "ACX-0" 3601] := by
  obtain ⟨cf, hc, hledger⟩ := reach_twoJumps
  obtain ⟨hnodup, -, -, hapart⟩ := ledger_of_reach (by decide) hc
  exact ⟨cf, hc, hnodup, (hapart [] [.resolved "ACX-0" 3600 (387 / 10000), .pick "ACX-0" 3601] []
    "ACX-0" "ACX-7200" 0 7200 "ACX" 120 120 (1 / 5) (1 / 5) hledger).2⟩

/-! ## What a picker knew -/

instance : Std.Total NoEarlier := ⟨fun _ _ => le_total _ _⟩

instance : IsTrans (String × Rec) NoEarlier := ⟨fun _ _ _ hab hbc => le_trans hbc hab⟩

theorem mem_cands {st : State} {coin : String} {item : String × Rec} : item ∈ cands st coin ↔
    st.get? item.1 = some item.2 ∧ matchesCoin coin item.2 = true ∧ item.2.status = .opened := by
  rw [cands, List.mem_insertionSort, List.mem_filter, Dict.get?_eq_some, Bool.and_eq_true,
    decide_eq_true_iff]

/-- What is chosen is open, not marked, of the coin, and no open one of the coin is later. -/
theorem choose_spec {st : State} {coin id : String} (h : choose st coin = some id) :
    ∃ r, st.get? id = some r ∧ matchesCoin coin r = true ∧ r.status = .opened ∧ r.picked = false ∧
      ∀ id' r', st.get? id' = some r' → matchesCoin coin r' = true → r'.status = .opened →
        r'.ts ≤ r.ts := by
  have hsorted : (cands st coin).Pairwise NoEarlier := List.pairwise_insertionSort _ _
  have hmem := @mem_cands st coin
  unfold choose at h
  cases hcands : cands st coin with
  | nil =>
      rw [hcands] at h
      cases h
  | cons first rest =>
      obtain ⟨id₀, r⟩ := first
      rw [hcands] at h hsorted hmem
      dsimp only at h
      split at h
      · cases h
      · next hpicked =>
          cases h
          obtain ⟨hget, hcoin, hopen⟩ := hmem.mp List.mem_cons_self
          refine ⟨r, hget, hcoin, hopen, by simpa using hpicked, ?_⟩
          intro id' r' hget' hcoin' hopen'
          have hcand : (id', r') ∈ (id, r) :: rest := hmem.mpr ⟨hget', hcoin', hopen'⟩
          rcases List.mem_cons.mp hcand with he | hlater
          · cases he
            exact le_rfl
          · exact (List.pairwise_cons.mp hsorted).1 _ hlater

/-- In the lines that were read, the ignition had no outcome, was not marked, and was the latest
open one of the coin that was asked for. -/
def Choice.Latest (choice : Choice) (ledger : List Ev) : Prop :=
  choice.seen ≤ ledger.length ∧ choice.id ∉ booked (ledger.take choice.seen) ∧
    ∃ r, (state (ledger.take choice.seen)).get? choice.id = some r ∧ r.picked = false ∧
      matchesCoin choice.coin r = true ∧
      ∀ id' r', (state (ledger.take choice.seen)).get? id' = some r' →
        matchesCoin choice.coin r' = true → r'.status = .opened → r'.ts ≤ r.ts

theorem Choice.MadeFrom.latest (hc : 0 < c) {ledger : List Ev} (hgrown : Grown (Legal c) ledger)
    {choice : Choice} (h : choice.MadeFrom ledger) : choice.Latest ledger := by
  obtain ⟨r, hget, hcoin, hopen, hpicked, hlast⟩ := choose_spec h.2
  have hread : Filed (ledger.take choice.seen) := filed hc (hgrown.take choice.seen)
  refine ⟨h.1, fun hmem => ?_, r, hget, hpicked, hcoin, hlast⟩
  have hresolved := (hread.closed hget).mpr hmem
  rw [hopen] at hresolved
  cases hresolved

/-- Whoever is about to mark an ignition, or has marked it, had chosen it from the lines of the
ledger that it had read, in which the ignition had no outcome, was not marked, and was the latest
open one of the coin that was asked for; the mark itself may come behind the outcome. -/
theorem picks_of_reach (hc : 0 < c) {cf : Config World Op Ret String (ℕ × ℕ) (Launch c)}
    (h : (desk c).Reach .any {} cf) :
    (∀ choice ∈ cf.world.pickers, choice.Latest cf.world.ledger) ∧
    ∀ xs ys id ts, cf.world.ledger = xs ++ .pick id ts :: ys →
      ∃ choice, cf.world.marks.get? xs.length = some choice ∧ choice.id = id ∧
        choice.Latest xs := by
  have hkept := kept_of_reach h
  refine ⟨fun choice hmem => (hkept.pickers choice hmem).latest hc hkept.grown, ?_⟩
  intro xs ys id ts hcut
  have hgrown := hkept.grown
  have hat : cf.world.ledger[xs.length]? = some (.pick id ts) := by
    rw [hcut]
    simp
  obtain ⟨choice, hmark, rfl, hmade⟩ := hkept.marks xs.length id ts hat
  rw [hcut] at hgrown hmade
  rw [List.take_left] at hmade
  exact ⟨choice, hmark, rfl, hmade.latest hc hgrown.split.1⟩

/-- A mark behind the outcome, of an ignition that was open when it was chosen. -/
theorem late_pick_was_open : ∃ cf, (desk 1).Reach .any {} cf ∧ ∃ choice,
    cf.world.marks.get? 2 = some choice ∧ "ACX-0" ∉ booked
      ([Ev.ignition "ACX-0" 0 "ACX" 120 (1 / 5), .resolved "ACX-0" 3600 (387 / 10000)].take
        choice.seen) := by
  obtain ⟨cf, hc, hledger⟩ := reach_twoJumps
  obtain ⟨choice, hmark, hid, -, hopen, -⟩ := (picks_of_reach (by decide) hc).2 [_, _]
    [.ignition "ACX-7200" 7200 "ACX" 120 (1 / 5)] "ACX-0" 3601 hledger
  rw [hid] at hopen
  exact ⟨cf, hc, choice, hmark, hopen⟩

end TreasuryForge.Ignition

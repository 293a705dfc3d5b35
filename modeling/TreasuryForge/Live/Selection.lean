/-
# `Live.Selection` — the scorecard of the picks

`selection_score.py` and `scripts/ignition_score.py`, which replays the ledger of ignitions and
scores what is resolved.  After any run the records it scores are the outcomes in the ledger,
each once, and picked where there is a pick in the ledger (`scored_of_reach`), so its averages
add up to what was booked (`scorecard_of_reach`).
-/
import TreasuryForge.Live.IgnitionRuns
import TreasuryForge.Signals.Linalg

namespace TreasuryForge.Ignition

open EventLog Resume

structure Resolved where
  coin : String
  picked : Bool
  realizedReturn : ℚ
  deriving DecidableEq, Repr

section Score

variable (m : Maths ℚ)

/-- `_mean_se` -/
def meanSe (xs : List ℚ) : ℚ × ℚ :=
  let n : ℚ := xs.length
  if n = 0 then (0, 0)
  else
    let mean := xs.sum / n
    if n < 2 then (mean, 0)
    else
      let var := (xs.map fun x => (x - mean) ^ 2).sum / (n - 1)
      (mean, m.sqrt (var / n))

structure SelectionScore where
  n : ℕ
  nPicked : ℕ
  nUnpicked : ℕ
  evAll : ℚ
  evPicked : ℚ
  evUnpicked : ℚ
  edgeVsUnpicked : ℚ
  edgeZ : ℚ
  deriving Repr

namespace SelectionScore

def beatsBaseline (s : SelectionScore) : Bool :=
  20 ≤ s.nPicked && 0 < s.edgeVsUnpicked && 2 ≤ s.edgeZ

def verdict (s : SelectionScore) : String :=
  if s.nPicked < 20 then
    "NEED MORE DATA (" ++ toString s.nPicked ++ "/20 picks resolved)"
  else if s.beatsBaseline then
    "SELECTION EDGE (picks beat the population, statistically separated)"
  else if 0 < s.edgeVsUnpicked then
    "promising but not yet significant (positive edge, z < 2)"
  else "NO EDGE -- picks do not beat the mechanical baseline (consistent with luck)"

end SelectionScore

def score (records : List Resolved) : SelectionScore :=
  let picked := (records.filter (·.picked)).map (·.realizedReturn)
  let unpicked := (records.filter (!·.picked)).map (·.realizedReturn)
  let all := records.map (·.realizedReturn)
  let (evAll, _) := meanSe m all
  let (evP, seP) := meanSe m picked
  let (evU, seU) := meanSe m unpicked
  let edge := evP - evU
  let combSe := m.sqrt (seP ^ 2 + seU ^ 2)
  let z := if 0 < combSe then edge / combSe else 0
  { n := all.length, nPicked := picked.length, nUnpicked := unpicked.length, evAll := evAll
    evPicked := evP, evUnpicked := evU, edgeVsUnpicked := edge, edgeZ := z }

/-- The records that `ignition_score.main` scores. -/
def resolvedOf (st : State) : List Resolved :=
  st.values.filterMap fun r =>
    if r.status = .resolved then r.realized.map (⟨r.coin, r.picked, ·⟩) else none

/-- `ignition_score.main` -/
def scorecard (ledger : List Ev) : SelectionScore := score m (resolvedOf (state ledger))

end Score

/-! ## Averages -/

variable {m : Maths ℚ}

theorem length_mul_mean (xs : List ℚ) : (xs.length : ℚ) * (meanSe m xs).1 = xs.sum := by
  cases xs with
  | nil => simp [meanSe]
  | cons x xs =>
      have hne : ((x :: xs).length : ℚ) ≠ 0 := Nat.cast_ne_zero.mpr (Nat.succ_ne_zero xs.length)
      have hmean : (meanSe m (x :: xs)).1 = (x :: xs).sum / (x :: xs).length := by
        simp only [meanSe, if_neg hne]
        split <;> rfl
      rw [hmean, mul_div_cancel₀ _ hne]

/-- The part of a list that passes a test, and the rest. -/
theorem sum_filter_add {A : Type} (test : A → Bool) (f : A → ℚ) (xs : List A) :
    ((xs.filter test).map f).sum + ((xs.filter (!test ·)).map f).sum = (xs.map f).sum := by
  induction xs with
  | nil => simp
  | cons x xs ih =>
      cases hx : test x with
      | true =>
          rw [List.filter_cons_of_pos hx, List.filter_cons_of_neg (by simp [hx]), List.map_cons,
            List.map_cons, List.sum_cons, List.sum_cons, ← ih, add_assoc]
      | false =>
          rw [List.filter_cons_of_neg (by simp [hx]), List.filter_cons_of_pos (by simp [hx]),
            List.map_cons, List.map_cons, List.sum_cons, List.sum_cons, ← ih, add_left_comm]

/-! ## Marks and outcomes in a ledger -/

/-- The ids that were marked, in order. -/
def marked (ledger : List Ev) : List String :=
  ledger.filterMap fun
    | .pick id _ => some id
    | _ => none

/-- The outcomes, in order, each with its id. -/
def outcomes (ledger : List Ev) : List (String × ℚ) :=
  ledger.filterMap fun
    | .resolved id _ x => some (id, x)
    | _ => none

theorem marked_append (xs ys : List Ev) : marked (xs ++ ys) = marked xs ++ marked ys :=
  List.filterMap_append ..

theorem outcomes_append (xs ys : List Ev) : outcomes (xs ++ ys) = outcomes xs ++ outcomes ys :=
  List.filterMap_append ..

theorem map_fst_outcomes (ledger : List Ev) : (outcomes ledger).map Prod.fst = booked ledger := by
  rw [outcomes, booked, List.map_filterMap]
  congr 1
  funext ev
  cases ev <;> rfl

/-- What the records of a ledger say of marks and outcomes. -/
structure Tallied (ledger : List Ev) : Prop where
  behind : ∀ id ∈ marked ledger, id ∈ ignited ledger
  marks : ∀ {id r}, (state ledger).get? id = some r → (r.picked = true ↔ id ∈ marked ledger)
  paid : ∀ {id r}, (state ledger).get? id = some r →
    ∀ x, r.realized = some x ↔ (id, x) ∈ outcomes ledger

theorem tallied_nil : Tallied [] where
  behind _ hmem := hmem
  marks hr := by cases hr
  paid hr := by cases hr

variable {c : ℤ}

theorem Tallied.snoc (hc : 0 < c) {ledger : List Ev} {ev : Ev} (hgrown : Grown (Legal c) ledger)
    (h : Tallied ledger) (hev : Legal c ledger ev) : Tallied (ledger ++ [ev]) := by
  have hfiled := filed hc hgrown
  cases hev with
  | @picker id ts coin seen hchoose =>
      have hknown : id ∈ ignited ledger := by
        obtain ⟨r, hget, -⟩ := choose_spec hchoose
        have hmem := ((filed hc (hgrown.take seen)).known id).mpr ⟨r, hget⟩
        rw [← List.take_append_drop seen ledger, ignited_append]
        exact List.mem_append_left _ hmem
      have hout : outcomes (ledger ++ [.pick id ts]) = outcomes ledger := by
        rw [outcomes_append]
        exact List.append_nil _
      have hmark : marked (ledger ++ [.pick id ts]) = marked ledger ++ [id] := marked_append ..
      refine ⟨?_, ?_, ?_⟩
      · intro id' hmem
        rw [hmark] at hmem
        rw [ignited_append]
        refine List.mem_append_left _ ?_
        rcases List.mem_append.mp hmem with hold | hlast
        · exact h.behind id' hold
        · rw [List.mem_singleton.mp hlast]
          exact hknown
      · intro id' r hr
        rw [hmark, List.mem_append, List.mem_singleton]
        rw [get?_snoc_pick] at hr
        split at hr
        · next hid =>
            obtain ⟨_, -, rfl⟩ := Option.map_eq_some_iff.mp hr
            exact iff_of_true rfl (Or.inr hid)
        · next hid => rw [or_iff_left hid, h.marks hr]
      · intro id' r hr x
        rw [hout]
        rw [get?_snoc_pick] at hr
        split at hr
        · next hid =>
            obtain ⟨r₀, hr₀, rfl⟩ := Option.map_eq_some_iff.mp hr
            rw [hid]
            exact h.paid hr₀ x
        · exact h.paid hr x
  | detector hallows =>
      cases hallows with
      | @ignition ts coin entry signalRet hold =>
          -- the id is new, so nothing was marked or booked under it
          have hnew : makeId coin ts ∉ ignited ledger := by
            intro hmem
            obtain ⟨r, hr⟩ := (hfiled.known _).mp hmem
            rw [hfiled.fresh hc hold] at hr
            cases hr
          generalize hid₀ : makeId coin ts = id at hnew ⊢
          have hmark : marked (ledger ++ [.ignition id ts coin entry signalRet]) =
              marked ledger := by
            rw [marked_append]
            exact List.append_nil _
          have hout : outcomes (ledger ++ [.ignition id ts coin entry signalRet]) =
              outcomes ledger := by
            rw [outcomes_append]
            exact List.append_nil _
          refine ⟨?_, ?_, ?_⟩
          · rw [hmark, ignited_append]
            exact fun id' hmem => List.mem_append_left _ (h.behind id' hmem)
          · intro id' r hr
            rw [hmark]
            rw [get?_snoc_ignition] at hr
            split at hr
            · next hid =>
                cases hr
                refine iff_of_false (by simp) fun hmem => hnew ?_
                rw [← hid]
                exact h.behind id' hmem
            · exact h.marks hr
          · intro id' r hr x
            rw [hout]
            rw [get?_snoc_ignition] at hr
            split at hr
            · next hid =>
                cases hr
                refine iff_of_false (by simp) fun hmem => hnew ?_
                rw [← hid]
                refine hfiled.behind id' ?_
                rw [← map_fst_outcomes]
                exact List.mem_map_of_mem hmem
            · exact h.paid hr x
      | @resolved id r₀ ts x₀ hr₀ hopen =>
          have hmark : marked (ledger ++ [.resolved id ts x₀]) = marked ledger := by
            rw [marked_append]
            exact List.append_nil _
          have hout : outcomes (ledger ++ [.resolved id ts x₀]) = outcomes ledger ++ [(id, x₀)] :=
            outcomes_append ..
          have hfirst : ∀ x, (id, x) ∉ outcomes ledger := by
            intro x hmem
            have hbooked : id ∈ booked ledger := by
              rw [← map_fst_outcomes]
              exact List.mem_map_of_mem hmem
            have hres := (hfiled.closed hr₀).mpr hbooked
            rw [hopen] at hres
            cases hres
          refine ⟨?_, ?_, ?_⟩
          · rw [hmark, ignited_append]
            exact fun id' hmem => List.mem_append_left _ (h.behind id' hmem)
          · intro id' r hr
            rw [hmark]
            rw [get?_snoc_resolved] at hr
            split at hr
            · next hid =>
                obtain ⟨r₁, hr₁, rfl⟩ := Option.map_eq_some_iff.mp hr
                rw [hid]
                show r₁.picked = true ↔ _
                exact h.marks hr₁
            · exact h.marks hr
          · intro id' r hr x
            rw [hout, List.mem_append, List.mem_singleton, Prod.mk.injEq]
            rw [get?_snoc_resolved] at hr
            split at hr
            · next hid =>
                obtain ⟨r₁, -, rfl⟩ := Option.map_eq_some_iff.mp hr
                rw [hid, or_iff_right (hfirst x)]
                exact ⟨fun he => ⟨rfl, (Option.some.inj he).symm⟩, fun he => by rw [he.2]⟩
            · next hid =>
                rw [or_iff_left fun he => hid he.1]
                exact h.paid hr x

theorem tallied (hc : 0 < c) {ledger : List Ev} (h : Grown (Legal c) ledger) : Tallied ledger :=
  h.keeps tallied_nil fun hgrown htallied hev => htallied.snoc hc hgrown hev

/-! ## What the scorecard counts -/

/-- The resolved records with their ids: what `resolvedOf` scores. -/
def keyed (st : State) : List (String × Bool × ℚ) :=
  st.items.filterMap fun p =>
    if p.2.status = .resolved then p.2.realized.map (p.1, p.2.picked, ·) else none

theorem map_keyed (st : State) : (keyed st).map Prod.snd =
    (resolvedOf st).map fun r => (r.picked, r.realizedReturn) := by
  rw [keyed, resolvedOf, Dict.values, List.map_filterMap, List.map_filterMap, List.filterMap_map]
  congr 1
  funext p
  dsimp only [Function.comp]
  split
  · rw [Option.map_map, Option.map_map]
    rfl
  · rfl

theorem nodup_keyed (st : State) : (keyed st).Nodup := by
  refine List.Nodup.of_map Prod.fst (List.Nodup.sublist ?_ st.nodup)
  rw [keyed]
  generalize st.items = items
  induction items with
  | nil => exact List.Sublist.slnil
  | cons p items ih =>
      rw [List.filterMap_cons, List.map_cons]
      split
      · exact ih.cons _
      · next hp =>
          split at hp
          · obtain ⟨x, -, rfl⟩ := Option.map_eq_some_iff.mp hp
            exact ih.cons_cons _
          · cases hp

theorem mem_keyed {st : State} {id : String} {b : Bool} {x : ℚ} : (id, b, x) ∈ keyed st ↔
    ∃ r, st.get? id = some r ∧ r.status = .resolved ∧ r.picked = b ∧ r.realized = some x := by
  rw [keyed, List.mem_filterMap]
  constructor
  · rintro ⟨⟨id', r⟩, hmem, hp⟩
    split at hp
    · next hstatus =>
        obtain ⟨x', hx', he⟩ := Option.map_eq_some_iff.mp hp
        cases he
        exact ⟨r, Dict.get?_eq_some.mpr hmem, hstatus, rfl, hx'⟩
    · cases hp
  · rintro ⟨r, hget, hstatus, rfl, hx⟩
    refine ⟨(id, r), Dict.get?_eq_some.mp hget, ?_⟩
    rw [if_pos hstatus, hx]
    rfl

/-- The records that are scored are the outcomes in the ledger, each once, and picked where the
ledger has a pick. -/
theorem scored_of_grown (hc : 0 < c) {ledger : List Ev} (h : Grown (Legal c) ledger) :
    ((resolvedOf (state ledger)).map fun r => (r.picked, r.realizedReturn)).Perm
      ((outcomes ledger).map fun o => (decide (o.1 ∈ marked ledger), o.2)) := by
  have hfiled := filed hc h
  have htallied := tallied hc h
  have hnodup :
      ((outcomes ledger).map fun o => (o.1, decide (o.1 ∈ marked ledger), o.2)).Nodup := by
    refine List.Nodup.of_map Prod.fst ?_
    rw [List.map_map]
    have hids := hfiled.final
    rw [← map_fst_outcomes] at hids
    exact hids
  have hperm : (keyed (state ledger)).Perm
      ((outcomes ledger).map fun o => (o.1, decide (o.1 ∈ marked ledger), o.2)) := by
    refine (List.perm_ext_iff_of_nodup (nodup_keyed _) hnodup).mpr ?_
    rintro ⟨id, b, x⟩
    rw [mem_keyed, List.mem_map]
    constructor
    · rintro ⟨r, hget, -, rfl, hx⟩
      refine ⟨(id, x), (htallied.paid hget x).mp hx, ?_⟩
      have hmark : decide (id ∈ marked ledger) = r.picked := by
        rw [Bool.eq_iff_iff, decide_eq_true_iff, htallied.marks hget]
      dsimp only
      rw [hmark]
    · rintro ⟨⟨id', x'⟩, hmem, he⟩
      cases he
      have hbooked : id' ∈ booked ledger := by
        rw [← map_fst_outcomes]
        exact List.mem_map_of_mem hmem
      obtain ⟨r, hget⟩ := (hfiled.known id').mp (hfiled.behind id' hbooked)
      refine ⟨r, hget, (hfiled.closed hget).mpr hbooked, ?_, (htallied.paid hget x').mpr hmem⟩
      rw [Bool.eq_iff_iff, decide_eq_true_iff, htallied.marks hget]
  rw [← map_keyed]
  have hsnd := hperm.map Prod.snd
  rw [List.map_map] at hsnd
  exact hsnd

/-- The returns of a score, by how many of them there are. -/
theorem score_sums (m : Maths ℚ) (records : List Resolved) :
    let s := score m records
    s.n = records.length ∧ s.nPicked = (records.filter (·.picked)).length ∧
    s.nPicked + s.nUnpicked = s.n ∧
    (s.n : ℚ) * s.evAll = (records.map (·.realizedReturn)).sum ∧
    (s.nPicked : ℚ) * s.evPicked = ((records.filter (·.picked)).map (·.realizedReturn)).sum ∧
    (s.nPicked : ℚ) * s.evPicked + s.nUnpicked * s.evUnpicked = s.n * s.evAll := by
  have hlengths : (records.filter (·.picked)).length + (records.filter (!·.picked)).length =
      records.length := by
    have hsum := sum_filter_add Resolved.picked (fun _ => 1) records
    simp only [List.map_const', List.sum_replicate, nsmul_eq_mul, mul_one] at hsum
    exact_mod_cast hsum
  refine ⟨List.length_map .., List.length_map .., ?_, ?_, length_mul_mean _, ?_⟩
  · simpa only [score, List.length_map] using hlengths
  · exact length_mul_mean _
  · refine (congrArg₂ (· + ·) (length_mul_mean _) (length_mul_mean _)).trans ?_
    exact (sum_filter_add Resolved.picked (·.realizedReturn) records).trans
      (length_mul_mean (m := m) _).symm

/-- Lists with the same pairs, in whatever order, have as many that pass, with the same sum. -/
theorem passing_perm {A B : Type} {test : A → Bool} {test' : B → Bool} {f : A → ℚ} {g : B → ℚ}
    {xs : List A} {ys : List B}
    (h : (xs.map fun x => (test x, f x)).Perm (ys.map fun y => (test' y, g y))) :
    (xs.filter test).length = (ys.filter test').length ∧
      ((xs.filter test).map f).sum = ((ys.filter test').map g).sum := by
  have hview : ∀ {C : Type} (t : C → Bool) (v : C → ℚ) (zs : List C),
      ((zs.map fun z => (t z, v z)).filter Prod.fst).map Prod.snd = (zs.filter t).map v := by
    intro C t v zs
    rw [List.filter_map, List.map_map]
    rfl
  have hperm := (h.filter Prod.fst).map Prod.snd
  rw [hview, hview] at hperm
  exact ⟨by simpa only [List.length_map] using hperm.length_eq, hperm.sum_eq⟩

/-- The scorecard of any run's ledger: it has the outcomes of the ledger, each once, its picks are
those that the ledger has a pick of, and its averages weigh up to what was booked. -/
theorem scorecard_of_reach (m : Maths ℚ) (hc : 0 < c)
    {cf : Config World Op Ret String (ℕ × ℕ) (Launch c)} (h : (desk c).Reach .any {} cf) :
    let s := scorecard m cf.world.ledger
    let booked := outcomes cf.world.ledger
    let pickedOnes := booked.filter fun o => o.1 ∈ marked cf.world.ledger
    s.n = booked.length ∧ s.nPicked = pickedOnes.length ∧ s.nPicked + s.nUnpicked = s.n ∧
    (s.n : ℚ) * s.evAll = (booked.map Prod.snd).sum ∧
    (s.nPicked : ℚ) * s.evPicked = (pickedOnes.map Prod.snd).sum ∧
    (s.nPicked : ℚ) * s.evPicked + s.nUnpicked * s.evUnpicked = s.n * s.evAll := by
  have hperm := scored_of_grown hc (grown_of_reach h)
  obtain ⟨hn, hpicked, hsplit, hall, hsum, hweigh⟩ :=
    score_sums m (resolvedOf (state cf.world.ledger))
  obtain ⟨hcount, hpaid⟩ := passing_perm hperm
  refine ⟨hn.trans ?_, hpicked.trans hcount, hsplit, hall.trans ?_, hsum.trans hpaid, hweigh⟩
  · simpa only [List.length_map] using hperm.length_eq
  · have hreturns := (hperm.map Prod.snd).sum_eq
    rw [List.map_map, List.map_map] at hreturns
    exact hreturns

/-- One outcome, and it was picked. -/
theorem scorecard_twoJumps : ∃ cf, (desk 1).Reach .any {} cf ∧
    (scorecard .decimal cf.world.ledger).n = 1 ∧
    (scorecard .decimal cf.world.ledger).nPicked = 1 := by
  obtain ⟨cf, hc, hledger⟩ := reach_twoJumps
  obtain ⟨hn, hpicked, -⟩ := scorecard_of_reach .decimal (by decide) hc
  rw [hledger] at hn hpicked
  refine ⟨cf, hc, ?_, ?_⟩
  · rw [hledger, hn]
    decide +kernel
  · rw [hledger, hpicked]
    decide +kernel

end TreasuryForge.Ignition

/-
# `Capital.Orchestrator` — what is staged, and when

`run_orchestrator.py`: in every round the ledgers of the shadows are read, the broker decides, and
a strategy is staged when it comes to be deployed.  What it stood at before is kept in memory; a
round whose reading raises is left out, and a strategy that a round does not report stands where
it stood.

`orchestrator_staged` says which rows there are after any number of rounds and restarts: for each
process, those of the rounds that report a strategy deployed which was not when it was reported
last.
-/
import TreasuryForge.Base.Since
import TreasuryForge.Capital.Digest
import TreasuryForge.Shadow.Record

namespace TreasuryForge

namespace Capital

open JsonText Shadow

/-! ## The rounds -/

/-- The ledgers of the shadows, by their directories. -/
abbrev Ledgers := Dict String (List Char)

/-- `sorted(glob.glob(f"{stem}_*"))` -/
def ledgersNamed (ledgers : Ledgers) (stem : String) : List String :=
  (ledgers.keys.filter fun name =>
    (stem ++ "_").toList.isPrefixOf name.toList).insertionSort (· ≤ ·)

/-- `_APPROACH_DSR` -/
def approachDsr : ℚ := 40 / 100

inductive Standing where
  | deploy
  | approach
  | hold
  deriving DecidableEq, Repr

/-- `_status` -/
def standing (d : BrokerDecision) : Standing :=
  if d.action = .deploy then .deploy else if approachDsr ≤ d.verdict.dsr then .approach else .hold

/-- A row of the staging ledger. -/
structure Stage where
  ts : ℤ
  strategy : String
  tier : ℚ
  dsr : ℚ
  status : String := "PENDING_OK"
  deriving DecidableEq, Repr

/-- What a round finds on disk, and the time. -/
structure Round where
  ledgers : Ledgers
  now : ℚ

/-- A decision, and the time of its round. -/
abbrev View := ℚ × BrokerDecision

def stageOf (v : View) : Stage :=
  { ts := v.1.num.tdiv v.1.den, strategy := v.2.strategy, tier := v.2.tierFraction
    dsr := v.2.verdict.dsr }

/-- What each strategy stood at, and the rows so far. -/
abbrev Watch := Dict String Standing × List Stage

def watchOne (w : Watch) (v : View) : Watch :=
  let st := standing v.2
  if w.1.get? v.2.strategy = some st then w
  else (w.1.set v.2.strategy st, if st = .deploy then w.2 ++ [stageOf v] else w.2)

section Rounds

variable (fl : Floats ℚ) (upper : String → String)

/-- One directory; a coin met before is overwritten. -/
def loadLedger (ledgers : Ledgers) (src : Source) (recs : Dict String TrackRecord)
    (name : String) : Option (Dict String TrackRecord) :=
  (readRecord fl src.kind (ledgers.getD name [])).map fun record =>
    if record.1 = [] then recs else recs.set s!"{src.label}:{coinOf upper name}" record

/-- `_load`; fails where it raises. -/
def load (ledgers : Ledgers) : Option (Dict String TrackRecord) :=
  sources.foldlM (fun recs src =>
    (ledgersNamed ledgers src.stem).foldlM (loadLedger fl upper ledgers src) recs) Dict.empty

variable (gate : List ℚ → List ℤ → Gate.GateVerdict)
  (committee : List ℚ → List ℤ → CommitteeVerdict)

/-- The body of the loop; one whose reading raises changes nothing. -/
def watchRound (w : Watch) (q : Round) : Watch :=
  match load fl upper q.ledgers with
  | none => w
  | some recs => (decide gate committee recs).decisions.foldl (fun w d => watchOne w (q.now, d)) w

/-- A process starts from nothing but the rows on disk. -/
def watchProcess (staged : List Stage) (rounds : List Round) : List Stage :=
  (rounds.foldl (watchRound fl upper gate committee) (Dict.empty, staged)).2

/-- What the rounds of a process report, one decision after the other. -/
def views (rounds : List Round) : List View :=
  rounds.flatMap fun q =>
    match load fl upper q.ledgers with
    | none => []
    | some recs => (decide gate committee recs).decisions.map (q.now, ·)

end Rounds

/-! ## When a strategy is staged -/

def Deployed (v : View) : Prop := v.2.action = .deploy

/-- The strategy is deployed now, and was not when it was reported last, if it was. -/
def Crosses (before : List View) (v : View) : Prop :=
  Deployed v ∧
    ¬ Since (fun u => u.2.strategy = v.2.strategy ∧ Deployed u)
      (fun u => u.2.strategy ≠ v.2.strategy) 0 before

theorem standing_deploy (d : BrokerDecision) : standing d = .deploy ↔ d.action = .deploy := by
  unfold standing
  split
  · next h => exact iff_of_true rfl h
  · next h =>
      split
      · exact iff_of_false Standing.noConfusion h
      · exact iff_of_false Standing.noConfusion h

/-- The memory is what the reports so far say of each strategy. -/
def Remembers (prev : Dict String Standing) (before : List View) : Prop :=
  ∀ s st, prev.get? s = some st ↔
    Since (fun u : View => u.2.strategy = s ∧ standing u.2 = st)
      (fun u => u.2.strategy ≠ s) 0 before

theorem remembers_nothing : Remembers Dict.empty [] := by
  intro s st
  exact iff_of_false (fun h => nomatch h) (Since.nil 0)

/-- What is reported becomes what was reported last. -/
theorem Remembers.report {prev : Dict String Standing} {before : List View}
    (h : Remembers prev before) (v : View) :
    Remembers (prev.set v.2.strategy (standing v.2)) (before ++ [v]) := by
  intro s st
  rw [Since.concat, Dict.get?_set, ← h s st]
  by_cases hs : s = v.2.strategy
  · subst hs
    simp
  · simp [hs, Ne.symm hs]

theorem Remembers.watchOne {w : Watch} {before : List View} (h : Remembers w.1 before) (v : View) :
    Remembers (watchOne w v).1 (before ++ [v]) := by
  have hreport := h.report v
  unfold Capital.watchOne
  dsimp only
  split
  · next hsame =>
      -- it is written what was there
      intro s st
      rw [← hreport s st, Dict.get?_set]
      by_cases hs : s = v.2.strategy
      · rw [if_pos hs, hs, hsame]
      · rw [if_neg hs]
  · exact hreport

/-- The memory tells a crossing from a strategy that is deployed still. -/
theorem Remembers.crosses {prev : Dict String Standing} {before : List View}
    (h : Remembers prev before) (v : View) :
    Crosses before v ↔ standing v.2 = .deploy ∧ prev.get? v.2.strategy ≠ some .deploy := by
  rw [Crosses, Deployed, standing_deploy, Ne, h]
  simp only [standing_deploy, Deployed]

open Classical in
/-- The row that a report adds, if any. -/
theorem Remembers.stages {w : Watch} {before : List View} (h : Remembers w.1 before) (v : View) :
    (Capital.watchOne w v).2 = w.2 ++ if Crosses before v then [stageOf v] else [] := by
  have hcrosses := h.crosses v
  unfold Capital.watchOne
  dsimp only
  by_cases hsame : w.1.get? v.2.strategy = some (standing v.2)
  · have hno : ¬ Crosses before v := by
      rw [hcrosses]
      rintro ⟨hdeploy, hnew⟩
      rw [hsame, hdeploy] at hnew
      exact hnew rfl
    rw [if_pos hsame, if_neg hno, List.append_nil]
  · rw [if_neg hsame]
    by_cases hdeploy : standing v.2 = .deploy
    · rw [hdeploy] at hsame
      rw [if_pos hdeploy, if_pos (hcrosses.mpr ⟨hdeploy, hsame⟩)]
    · rw [if_neg hdeploy, if_neg fun hcross => hdeploy (hcrosses.mp hcross).1, List.append_nil]

open Classical in
/-- The crossings among these reports, behind those before them. -/
noncomputable def crossingsFrom (before vs : List View) : List View :=
  ((cutsFrom before vs).filter fun m => Crosses m.1 m.2).map Prod.snd

theorem watch_views (vs : List View) : ∀ {w : Watch} {before : List View}, Remembers w.1 before →
    (vs.foldl watchOne w).2 = w.2 ++ (crossingsFrom before vs).map stageOf := by
  classical
  induction vs with
  | nil =>
      intro w before _
      exact (List.append_nil _).symm
  | cons v vs ih =>
      intro w before h
      have hrest := ih (h.watchOne v)
      rw [h.stages v] at hrest
      rw [List.foldl_cons, hrest, List.append_assoc]
      refine congrArg (w.2 ++ ·) ?_
      unfold crossingsFrom
      rw [cutsFrom, List.filter_cons]
      by_cases hcross : Crosses before v
      · simp [hcross]
      · simp [hcross]

theorem mem_crossings {vs : List View} {v : View} :
    v ∈ crossingsFrom [] vs ↔ ∃ before behind, vs = before ++ v :: behind ∧ Crosses before v := by
  classical
  simp only [crossingsFrom, List.mem_map, List.mem_filter, decide_eq_true_eq]
  constructor
  · rintro ⟨⟨before, u⟩, ⟨hmem, hcross⟩, rfl⟩
    obtain ⟨behind, hcut⟩ := mem_cuts.mp hmem
    exact ⟨before, behind, hcut, hcross⟩
  · rintro ⟨before, behind, hcut, hcross⟩
    exact ⟨(before, v), ⟨mem_cuts.mpr ⟨behind, hcut⟩, hcross⟩, rfl⟩

/-! ## Between two crossings -/

section Between

variable {s : String} {u v : View}

/-- Deployed once, and at every later report: deployed when it was reported last. -/
theorem since_deployed {front mid : List View} (hu : u.2.strategy = s ∧ Deployed u)
    (hmid : ∀ w ∈ mid, w.2.strategy = s → Deployed w) :
    Since (fun u => u.2.strategy = s ∧ Deployed u) (fun u => u.2.strategy ≠ s) 0
      (front ++ u :: mid) := by
  induction mid using List.reverseRecOn with
  | nil => exact Since.concat.mpr (Or.inl hu)
  | append_singleton mid w ih =>
      have hbefore := ih fun x hx => hmid x (List.mem_append_left _ hx)
      rw [← List.cons_append, ← List.append_assoc, Since.concat]
      by_cases hs : w.2.strategy = s
      · exact Or.inl ⟨hs, hmid w (by simp) hs⟩
      · exact Or.inr ⟨hs, hbefore⟩

/-- Two crossings of a strategy have a report between them in which it is not deployed. -/
theorem Crosses.apart {front mid : List View} (hu : Crosses front u)
    (hv : Crosses (front ++ u :: mid) v) (hsame : u.2.strategy = v.2.strategy) :
    ∃ w ∈ mid, w.2.strategy = v.2.strategy ∧ ¬ Deployed w := by
  by_contra hno
  push Not at hno
  exact hv.2 (since_deployed ⟨hsame, hu.1⟩ hno)

/-- A strategy that is deployed crossed, and has been deployed in every report from then on. -/
theorem deployed_crossed (n : ℕ) : ∀ {before : List View} {v : View},
    before.length ≤ n → Deployed v →
    ∃ front u behind, before ++ [v] = front ++ u :: behind ∧ Crosses front u ∧
      u.2.strategy = v.2.strategy ∧
      ∀ w ∈ behind, w.2.strategy = v.2.strategy → Deployed w := by
  induction n with
  | zero =>
      intro before v hlength hv
      obtain rfl := List.length_eq_zero_iff.mp (Nat.le_zero.mp hlength)
      exact ⟨[], v, [], rfl, ⟨hv, Since.nil 0⟩, rfl, by simp⟩
  | succ n ih =>
      intro before v hlength hv
      by_cases hcross : Crosses before v
      · exact ⟨before, v, [], rfl, hcross, rfl, by simp⟩
      · obtain ⟨front', u', behind', rfl, ⟨hsame', hdeployed'⟩, -, hother⟩ :=
          not_not.mp fun hno => hcross ⟨hv, hno⟩
        rw [List.length_append, List.length_cons] at hlength
        obtain ⟨front, u, behind, hcut, hu, hsame, hkeep⟩ :=
          ih (show front'.length ≤ n by omega) hdeployed'
        refine ⟨front, u, behind ++ (behind' ++ [v]), ?_, hu, hsame.trans hsame', ?_⟩
        · rw [List.append_cons front' u' behind', hcut]
          simp
        · intro w hw hws
          simp only [List.mem_append, List.mem_singleton] at hw
          rcases hw with hw | hw | rfl
          · exact hkeep w hw (hws.trans hsame'.symm)
          · exact absurd hws (hother w hw)
          · exact hv

end Between

/-! ## The ledger -/

section Ledger

variable (fl : Floats ℚ) (upper : String → String)
  (gate : List ℚ → List ℤ → Gate.GateVerdict)
  (committee : List ℚ → List ℤ → CommitteeVerdict)

theorem watch_process (rounds : List Round) (staged : List Stage) :
    watchProcess fl upper gate committee staged rounds =
      staged ++ (crossingsFrom [] (views fl upper gate committee rounds)).map stageOf := by
  have hfold : ∀ (rounds : List Round) (w : Watch),
      rounds.foldl (watchRound fl upper gate committee) w =
        (views fl upper gate committee rounds).foldl watchOne w := by
    intro rounds w
    rw [views, List.foldl_flatMap]
    congr 1
    funext w q
    unfold watchRound
    split
    · rfl
    · rw [List.foldl_map]
  rw [watchProcess, hfold]
  exact watch_views _ remembers_nothing

/-- A report that deploys a strategy: its record cleared the gate, and was approved. -/
theorem deployed_cleared {rounds : List Round} {v : View}
    (hv : v ∈ views fl upper gate committee rounds) (hdeployed : Deployed v) :
    ∃ q ∈ rounds, ∃ recs returns ts, load fl upper q.ledgers = some recs ∧
      recs.get? v.2.strategy = some (returns, ts) ∧ (gate returns ts).deploy = true ∧
      (committee returns ts).approved = true ∧ v.2.verdict = gate returns ts ∧
      v.2.tierFraction = (gate returns ts).tierFraction ∧ v.1 = q.now := by
  obtain ⟨q, hq, hview⟩ := List.mem_flatMap.mp hv
  cases hload : load fl upper q.ledgers with
  | none =>
      rw [hload] at hview
      cases hview
  | some recs =>
      rw [hload] at hview
      obtain ⟨d, hd, rfl⟩ := List.mem_map.mp hview
      obtain ⟨earlier, later, hcut⟩ := List.append_of_mem hd
      obtain ⟨g, hg, hdecided⟩ := decideAll_split committee portfolioCap hcut
      obtain ⟨hget, hgate⟩ := (mem_graded gate).mp hg
      obtain ⟨hstrategy, hverdict, hcases⟩ :=
        decideOne_cases committee portfolioCap (0 + given earlier) g
      rw [← hdecided] at hstrategy hverdict hcases
      rcases hcases with ⟨-, htier, -, hqualifies, -⟩ | ⟨hhold, -⟩
      · refine ⟨q, hq, recs, g.returns, g.ts, hload, ?_, ?_, hqualifies.2, ?_, ?_, rfl⟩
        · rw [hstrategy]
          exact hget
        · rw [← hgate]
          exact hqualifies.1
        · rw [hverdict, hgate]
        · rw [htier, hgate]
      · have hdeploy : d.action = .deploy := hdeployed
        rw [hhold] at hdeploy
        cases hdeploy

/-- After any rounds and restarts the ledger has, process by process, one row for each crossing.
A row is of a strategy whose record cleared the gate and was approved; what is deployed has a row
from which on it was deployed in every report; and two rows of a process for one strategy have a
report between them in which it was not deployed. -/
theorem orchestrator_staged (history : List (List Round)) :
    history.foldl (watchProcess fl upper gate committee) [] =
        history.flatMap (fun rounds =>
          (crossingsFrom [] (views fl upper gate committee rounds)).map stageOf) ∧
      ∀ rounds ∈ history, let reports := views fl upper gate committee rounds
        (∀ v ∈ crossingsFrom [] reports, ∃ q ∈ rounds, ∃ recs returns ts,
          load fl upper q.ledgers = some recs ∧ recs.get? v.2.strategy = some (returns, ts) ∧
          (gate returns ts).deploy = true ∧ (committee returns ts).approved = true ∧
          stageOf v = { ts := q.now.num.tdiv q.now.den, strategy := v.2.strategy
                        tier := (gate returns ts).tierFraction, dsr := (gate returns ts).dsr }) ∧
        (∀ before v behind, reports = before ++ v :: behind → Deployed v →
          ∃ front u mid, before ++ [v] = front ++ u :: mid ∧ u ∈ crossingsFrom [] reports ∧
            u.2.strategy = v.2.strategy ∧
            ∀ w ∈ mid, w.2.strategy = v.2.strategy → Deployed w) ∧
        ∀ front u mid v behind, reports = front ++ u :: mid ++ v :: behind → Crosses front u →
          Crosses (front ++ u :: mid) v → u.2.strategy = v.2.strategy →
          ∃ w ∈ mid, w.2.strategy = v.2.strategy ∧ ¬ Deployed w := by
  constructor
  · have hrows : ∀ (history : List (List Round)) (staged : List Stage),
        history.foldl (watchProcess fl upper gate committee) staged =
          staged ++ history.flatMap fun rounds =>
            (crossingsFrom [] (views fl upper gate committee rounds)).map stageOf := by
      intro history
      induction history with
      | nil => exact fun staged => (List.append_nil staged).symm
      | cons rounds history ih =>
          intro staged
          rw [List.foldl_cons, watch_process, ih, List.append_assoc, List.flatMap_cons]
    exact hrows history []
  · intro rounds _ reports
    refine ⟨?_, ?_, ?_⟩
    · intro v hv
      obtain ⟨before, behind, hcut, hcross⟩ := mem_crossings.mp hv
      have hmem : v ∈ views fl upper gate committee rounds := by
        rw [show views fl upper gate committee rounds = before ++ v :: behind from hcut]
        exact List.mem_append_right _ List.mem_cons_self
      obtain ⟨q, hq, recs, returns, ts, hload, hget, hgate, happroved, hverdict, htier, hnow⟩ :=
        deployed_cleared fl upper gate committee hmem hcross.1
      refine ⟨q, hq, recs, returns, ts, hload, hget, hgate, happroved, ?_⟩
      rw [stageOf, hverdict, htier, hnow]
    · intro before v behind hcut hdeployed
      obtain ⟨front, u, mid, hupto, hcross, hsame, hkeep⟩ := deployed_crossed _ le_rfl hdeployed
      refine ⟨front, u, mid, hupto, ?_, hsame, hkeep⟩
      refine mem_crossings.mpr ⟨front, mid ++ behind, ?_, hcross⟩
      rw [hcut, List.append_cons before v behind, hupto]
      simp
    · intro front u mid v behind _ hu hv hsame
      exact hu.apart hv hsame

end Ledger

end Capital

end TreasuryForge

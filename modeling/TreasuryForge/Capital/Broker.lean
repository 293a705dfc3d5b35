/-
# `Capital.Broker` — who is given real capital, and how much

`broker.py` over exact fractions, for any gate and any committee.  The strategies are graded and
sorted, the best deflated Sharpe ratio first, and deployed one after the other as long as the
portfolio has room.  `decideAll_split` says what is decided at one place of that order, from what
was deployed before it; `decide_budget` is the whole of it.
-/
import TreasuryForge.Capital.Consultants
import TreasuryForge.Base.Dict

namespace TreasuryForge

namespace Capital

open Gate

/-- The returns of a strategy and their times. -/
abbrev TrackRecord := List ℚ × List ℤ

/-- `PORTFOLIO_CAP` -/
def portfolioCap : ℚ := 25 / 100

inductive BrokerAction where
  | deploy
  | hold
  deriving DecidableEq, Repr

def BrokerAction.text : BrokerAction → String
  | .deploy => "DEPLOY"
  | .hold => "HOLD"

structure BrokerDecision where
  strategy : String
  action : BrokerAction
  tierFraction : ℚ
  verdict : Gate.GateVerdict
  reason : String

structure BrokerReport where
  decisions : List BrokerDecision
  totalDeployed : ℚ
  nDeployed : ℕ

/-- A strategy beside what the gate says of its record. -/
structure Graded where
  strategy : String
  returns : List ℚ
  ts : List ℤ
  verdict : Gate.GateVerdict

section Decide

variable (gate : List ℚ → List ℤ → Gate.GateVerdict)
  (committee : List ℚ → List ℤ → CommitteeVerdict)

def grade (entry : String × TrackRecord) : Graded :=
  ⟨entry.1, entry.2.1, entry.2.2, gate entry.2.1 entry.2.2⟩

/-- The sort key, the highest ratio first. -/
def Graded.Before (a b : Graded) : Prop := -a.verdict.dsr ≤ -b.verdict.dsr

instance : DecidableRel Graded.Before := fun _ _ => inferInstanceAs (Decidable (_ ≤ _))

instance : Std.Total Graded.Before := ⟨fun _ _ => le_total _ _⟩

instance : IsTrans Graded Graded.Before := ⟨fun _ _ _ hab hbc => le_trans hab hbc⟩

/-- `sorted(…, key=lambda x: -x[3].dsr)`, which is stable. -/
def graded (records : Dict String TrackRecord) : List Graded :=
  (records.items.map (grade gate)).insertionSort Graded.Before

/-- One decision, and what is deployed after it. -/
def decideOne (cap deployed : ℚ) (g : Graded) : BrokerDecision × ℚ :=
  let v := g.verdict
  let panel := committee g.returns g.ts
  if v.deploy = true ∧ panel.approved = false then
    (⟨g.strategy, .hold, 0, v, s!"gate ok but committee vetoed: {panel.render}"⟩, deployed)
  else if v.deploy = true ∧ deployed + v.tierFraction ≤ cap + 1 / 10 ^ 9 then
    (⟨g.strategy, .deploy, v.tierFraction, v, s!"cleared gate + committee ({v.reason})"⟩,
      deployed + v.tierFraction)
  else if v.deploy = true then
    (⟨g.strategy, .hold, 0, v, s!"gate+committee ok but portfolio cap {percent 0 cap} full"⟩,
      deployed)
  else (⟨g.strategy, .hold, 0, v, v.reason⟩, deployed)

def decideAll (cap deployed : ℚ) : List Graded → List BrokerDecision × ℚ
  | [] => ([], deployed)
  | g :: gs =>
      let (d, deployed) := decideOne committee cap deployed g
      let (ds, deployed) := decideAll cap deployed gs
      (d :: ds, deployed)

def decide (records : Dict String TrackRecord) (cap : ℚ := portfolioCap) : BrokerReport :=
  let (decisions, deployed) := decideAll committee cap 0 (graded gate records)
  ⟨decisions, deployed, decisions.countP (·.action = .deploy)⟩

end Decide

/-! ## The order -/

section Order

variable (gate : List ℚ → List ℤ → Gate.GateVerdict)

theorem graded_perm (records : Dict String TrackRecord) :
    (graded gate records).Perm (records.items.map (grade gate)) := List.perm_insertionSort _ _

theorem mem_graded {records : Dict String TrackRecord} {g : Graded} :
    g ∈ graded gate records ↔
      records.get? g.strategy = some (g.returns, g.ts) ∧ g.verdict = gate g.returns g.ts := by
  rw [(graded_perm gate records).mem_iff, List.mem_map]
  constructor
  · rintro ⟨⟨s, rs, ts⟩, hmem, rfl⟩
    exact ⟨Dict.get?_eq_some.mpr hmem, rfl⟩
  · rintro ⟨hget, hverdict⟩
    refine ⟨(g.strategy, g.returns, g.ts), Dict.get?_eq_some.mp hget, ?_⟩
    rw [grade, ← hverdict]

theorem graded_strategies (records : Dict String TrackRecord) :
    ((graded gate records).map (·.strategy)).Perm records.keys := by
  have hperm := (graded_perm gate records).map (·.strategy)
  rwa [List.map_map] at hperm

theorem graded_sorted (records : Dict String TrackRecord) :
    (graded gate records).Pairwise fun a b => b.verdict.dsr ≤ a.verdict.dsr := by
  have hsort : (graded gate records).Pairwise Graded.Before := List.pairwise_insertionSort _ _
  refine hsort.imp ?_
  intro a b hab
  exact neg_le_neg_iff.mp hab

end Order

/-! ## One decision -/

section One

variable (committee : List ℚ → List ℤ → CommitteeVerdict) (cap deployed : ℚ)

/-- The gate passes and the committee approves. -/
def Graded.Qualifies (committee : List ℚ → List ℤ → CommitteeVerdict) (g : Graded) : Prop :=
  g.verdict.deploy = true ∧ (committee g.returns g.ts).approved = true

instance (committee : List ℚ → List ℤ → CommitteeVerdict) (g : Graded) :
    Decidable (g.Qualifies committee) := inferInstanceAs (Decidable (_ ∧ _))

/-- What a decision can be: capital for a strategy that qualifies and fits, or nothing. -/
theorem decideOne_cases (g : Graded) :
    let d := decideOne committee cap deployed g
    d.1.strategy = g.strategy ∧ d.1.verdict = g.verdict ∧
      ((d.1.action = .deploy ∧ d.1.tierFraction = g.verdict.tierFraction ∧
          d.2 = deployed + g.verdict.tierFraction ∧ g.Qualifies committee ∧
          deployed + g.verdict.tierFraction ≤ cap + 1 / 10 ^ 9) ∨
        (d.1.action = .hold ∧ d.1.tierFraction = 0 ∧ d.2 = deployed ∧
          ¬ (g.Qualifies committee ∧ deployed + g.verdict.tierFraction ≤ cap + 1 / 10 ^ 9))) := by
  intro d
  dsimp only [d, decideOne]
  split
  · next h =>
      refine ⟨rfl, rfl, Or.inr ⟨rfl, rfl, rfl, ?_⟩⟩
      rintro ⟨⟨-, happroved⟩, -⟩
      rw [h.2] at happroved
      cases happroved
  · next hveto =>
      split
      · next h =>
          have happroved : (committee g.returns g.ts).approved = true :=
            eq_true_of_ne_false fun hno => hveto ⟨h.1, hno⟩
          exact ⟨rfl, rfl, Or.inl ⟨rfl, rfl, rfl, ⟨h.1, happroved⟩, h.2⟩⟩
      · next hroom =>
          split
          · next h =>
              refine ⟨rfl, rfl, Or.inr ⟨rfl, rfl, rfl, ?_⟩⟩
              rintro ⟨-, hfits⟩
              exact hroom ⟨h, hfits⟩
          · next h =>
              refine ⟨rfl, rfl, Or.inr ⟨rfl, rfl, rfl, ?_⟩⟩
              rintro ⟨⟨hdeploy, -⟩, -⟩
              exact h hdeploy

theorem decideOne_deploy_iff (g : Graded) :
    (decideOne committee cap deployed g).1.action = .deploy ↔
      g.Qualifies committee ∧ deployed + g.verdict.tierFraction ≤ cap + 1 / 10 ^ 9 := by
  obtain ⟨-, -, ⟨haction, -, -, hq, hfits⟩ | ⟨haction, -, -, hno⟩⟩ :=
    decideOne_cases committee cap deployed g
  · exact iff_of_true haction ⟨hq, hfits⟩
  · refine iff_of_false ?_ hno
    rw [haction]
    exact BrokerAction.noConfusion

theorem decideOne_deployed (g : Graded) :
    (decideOne committee cap deployed g).2 =
      deployed + (decideOne committee cap deployed g).1.tierFraction := by
  obtain ⟨-, -, ⟨-, htier, hsum, -, -⟩ | ⟨-, htier, hsum, -⟩⟩ :=
    decideOne_cases committee cap deployed g
  · rw [hsum, htier]
  · rw [hsum, htier, add_zero]

theorem decideOne_budget {deployed : ℚ} (h : deployed ≤ cap + 1 / 10 ^ 9) (g : Graded) :
    (decideOne committee cap deployed g).2 ≤ cap + 1 / 10 ^ 9 := by
  obtain ⟨-, -, ⟨-, -, hsum, -, hfits⟩ | ⟨-, -, hsum, -⟩⟩ :=
    decideOne_cases committee cap deployed g
  · rwa [hsum]
  · rwa [hsum]

end One

/-! ## The whole run -/

section Run

variable (committee : List ℚ → List ℤ → CommitteeVerdict) (cap : ℚ)

/-- The capital that some decisions give. -/
def given (ds : List BrokerDecision) : ℚ := (ds.map (·.tierFraction)).sum

@[simp] theorem given_nil : given [] = 0 := rfl

@[simp] theorem given_cons (d : BrokerDecision) (ds : List BrokerDecision) :
    given (d :: ds) = d.tierFraction + given ds := rfl

/-- What a decision keeps of the strategy it is about. -/
def Graded.Decided (committee : List ℚ → List ℤ → CommitteeVerdict) (g : Graded)
    (d : BrokerDecision) : Prop :=
  d.strategy = g.strategy ∧ d.verdict = g.verdict ∧ (d.action = .deploy → g.Qualifies committee)

/-- Each strategy keeps its place in the order. -/
theorem decideAll_rows (deployed : ℚ) (gs : List Graded) :
    List.Forall₂ (Graded.Decided committee) gs (decideAll committee cap deployed gs).1 := by
  induction gs generalizing deployed with
  | nil => exact .nil
  | cons g gs ih =>
      obtain ⟨hstrategy, hverdict, -⟩ := decideOne_cases committee cap deployed g
      refine .cons ⟨hstrategy, hverdict, ?_⟩ (ih _)
      intro hdeploy
      exact ((decideOne_deploy_iff committee cap deployed g).mp hdeploy).1

theorem decideAll_deployed (deployed : ℚ) (gs : List Graded) :
    (decideAll committee cap deployed gs).2 =
      deployed + given (decideAll committee cap deployed gs).1 := by
  induction gs generalizing deployed with
  | nil => exact (add_zero deployed).symm
  | cons g gs ih =>
      rw [decideAll]
      dsimp only
      rw [ih, decideOne_deployed, given_cons, add_assoc]

theorem decideAll_budget {deployed : ℚ} (h : deployed ≤ cap + 1 / 10 ^ 9) (gs : List Graded) :
    (decideAll committee cap deployed gs).2 ≤ cap + 1 / 10 ^ 9 := by
  induction gs generalizing deployed with
  | nil => exact h
  | cons g gs ih => exact ih (decideOne_budget committee cap h g)

/-- The decision at any place is the one made with what was deployed before it. -/
theorem decideAll_split {deployed : ℚ} {gs : List Graded} {earlier later : List BrokerDecision}
    {d : BrokerDecision} (h : (decideAll committee cap deployed gs).1 = earlier ++ d :: later) :
    ∃ g ∈ gs, d = (decideOne committee cap (deployed + given earlier) g).1 := by
  induction gs generalizing deployed earlier with
  | nil => exact absurd h.symm (List.append_ne_nil_of_right_ne_nil _ (List.cons_ne_nil _ _))
  | cons g gs ih =>
      rw [decideAll] at h
      dsimp only at h
      cases earlier with
      | nil =>
          obtain ⟨hd, -⟩ := List.cons.inj h
          refine ⟨g, List.mem_cons_self, ?_⟩
          rw [given_nil, add_zero, hd]
      | cons e earlier =>
          obtain ⟨he, hrest⟩ := List.cons.inj h
          obtain ⟨g', hmem, hd⟩ := ih hrest
          refine ⟨g', List.mem_cons_of_mem g hmem, ?_⟩
          rw [hd, given_cons, decideOne_deployed, ← he, add_assoc]

end Run

theorem map_eq_of_forall₂ {A B C : Type} {f : A → C} {g : B → C} {as : List A} {bs : List B}
    (h : List.Forall₂ (fun a b => g b = f a) as bs) : bs.map g = as.map f := by
  induction h with
  | nil => rfl
  | cons hab _ ih => rw [List.map_cons, List.map_cons, hab, ih]

section Budget

variable (gate : List ℚ → List ℤ → Gate.GateVerdict)
  (committee : List ℚ → List ℤ → CommitteeVerdict)
  (records : Dict String TrackRecord)

theorem decide_rows (cap : ℚ) :
    List.Forall₂ (Graded.Decided committee) (graded gate records)
      (decide gate committee records cap).decisions :=
  decideAll_rows committee cap 0 _

theorem decide_strategies (cap : ℚ) :
    (decide gate committee records cap).decisions.map (·.strategy) =
      (graded gate records).map (·.strategy) :=
  map_eq_of_forall₂ ((decide_rows gate committee records cap).imp fun _ _ h => h.1)

/-- Exactly one decision for each strategy, the best first, within the budget; and capital for
exactly those that pass, are approved and fit in what the earlier ones left. -/
theorem decide_budget {cap : ℚ} (hcap : 0 ≤ cap) :
    let report := decide gate committee records cap
    (report.decisions.map (·.strategy)).Perm records.keys ∧
      report.decisions.Pairwise (fun a b => b.verdict.dsr ≤ a.verdict.dsr) ∧
      given report.decisions = report.totalDeployed ∧
      report.totalDeployed ≤ cap + 1 / 10 ^ 9 ∧
      ∀ earlier d later, report.decisions = earlier ++ d :: later →
        ∃ returns ts, records.get? d.strategy = some (returns, ts) ∧
          d.verdict = gate returns ts ∧
          (d.action = .deploy ↔ d.verdict.deploy = true ∧ (committee returns ts).approved = true ∧
            given earlier + d.verdict.tierFraction ≤ cap + 1 / 10 ^ 9) ∧
          d.tierFraction = if d.action = .deploy then d.verdict.tierFraction else 0 := by
  intro report
  have hrows := decide_rows gate committee records cap
  refine ⟨?_, ?_, ?_, ?_, ?_⟩
  · rw [decide_strategies]
    exact graded_strategies gate records
  · have hmap : report.decisions.map (·.verdict.dsr) =
        (graded gate records).map (·.verdict.dsr) :=
      map_eq_of_forall₂ (hrows.imp fun _ _ h => congrArg _ h.2.1)
    have hsorted : ((graded gate records).map (·.verdict.dsr)).Pairwise fun a b => b ≤ a :=
      List.pairwise_map.mpr (graded_sorted gate records)
    rw [← hmap] at hsorted
    exact List.pairwise_map.mp hsorted
  · have hsum := decideAll_deployed committee cap 0 (graded gate records)
    rw [zero_add] at hsum
    exact hsum.symm
  · have hstart : (0 : ℚ) ≤ cap + 1 / 10 ^ 9 := by positivity
    exact decideAll_budget committee cap hstart _
  · intro earlier d later hsplit
    obtain ⟨g, hg, hd⟩ := decideAll_split committee cap hsplit
    rw [zero_add] at hd
    obtain ⟨hget, hgate⟩ := (mem_graded gate).mp hg
    obtain ⟨hstrategy, hverdict, hcases⟩ :=
      decideOne_cases committee cap (given earlier) g
    rw [← hd] at hstrategy hverdict hcases
    refine ⟨g.returns, g.ts, by rwa [hstrategy], by rwa [hverdict], ?_, ?_⟩
    · rw [hd, decideOne_deploy_iff, ← hd, hverdict]
      exact and_assoc
    · rw [hverdict]
      rcases hcases with ⟨haction, htier, -⟩ | ⟨haction, htier, -⟩
      · rw [haction, htier, if_pos rfl]
      · rw [haction, htier, if_neg BrokerAction.noConfusion]

end Budget

/-- A gate that every record clears for a hundredth. -/
def openGate (returns : List ℚ) (ts : List ℤ) : Gate.GateVerdict :=
  ⟨true, returns.sum, 0, returns.length, spanDays ts, 1 / 100, "ok"⟩

def approving (_returns : List ℚ) (_ts : List ℤ) : CommitteeVerdict := ⟨true, []⟩

/-- Room for one of two. -/
theorem decide_budget_of_two :
    (decide openGate approving
      ((Dict.empty.set "funding:BTC" ([1], [0])).set "basis:BTC" ([2], [0])) (1 / 100)).totalDeployed ≤
        1 / 100 + 1 / 10 ^ 9 :=
  (decide_budget openGate approving _ (by norm_num)).2.2.2.1

end Capital

end TreasuryForge

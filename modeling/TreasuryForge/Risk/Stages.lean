/-
# `Risk.Stages` — when a live strategy climbs, holds, shrinks or dies

The stage ladder of `risk/stages.py`.  A better performance is killed and demoted by fewer rules,
and promoted by more.  `Ruling` is what the rules come to, the worst first, and
`evaluateStage_monotone` what follows for two performances and for whole runs.
-/
import TreasuryForge.Core.Gated

namespace TreasuryForge.Gate

/-! ## The ladder -/

namespace Stage

def name : Stage → String
  | .dead => "DEAD"
  | .paperLive => "PAPER_LIVE"
  | .microCapital => "MICRO_CAPITAL"
  | .smallCapital => "SMALL_CAPITAL"
  | .normalCapital => "NORMAL_CAPITAL"
  | .cappedProduction => "CAPPED_PRODUCTION"

/-- `int(stage)` -/
def level : Stage → ℤ
  | .dead => -1
  | .paperLive => 0
  | .microCapital => 1
  | .smallCapital => 2
  | .normalCapital => 3
  | .cappedProduction => 4

/-- `Stage(max(int(current) - 1, int(Stage.PAPER_LIVE)))` -/
def below : Stage → Stage
  | .dead => .paperLive
  | .paperLive => .paperLive
  | .microCapital => .paperLive
  | .smallCapital => .microCapital
  | .normalCapital => .smallCapital
  | .cappedProduction => .normalCapital

/-- `Stage(min(int(current) + 1, int(Stage.CAPPED_PRODUCTION)))` -/
def above : Stage → Stage
  | .dead => .paperLive
  | .paperLive => .microCapital
  | .microCapital => .smallCapital
  | .smallCapital => .normalCapital
  | .normalCapital => .cappedProduction
  | .cappedProduction => .cappedProduction

theorem level_below (s : Stage) : s.below.level = max (s.level - 1) paperLive.level := by
  cases s <;> rfl

theorem level_above (s : Stage) : s.above.level = min (s.level + 1) cappedProduction.level := by
  cases s <;> rfl

theorem dead_le (s : Stage) : dead.level ≤ s.level := by
  cases s <;> decide

theorem le_capped (s : Stage) : s.level ≤ cappedProduction.level := by
  cases s <;> decide

theorem level_pos {s : Stage} (h : s ≠ .dead) : paperLive.level ≤ s.level := by
  cases s with
  | dead => exact absurd rfl h
  | _ => decide

theorem below_le {s : Stage} (h : s ≠ .dead) : s.below.level ≤ s.level := by
  rw [level_below]
  exact max_le (by omega) (level_pos h)

theorem le_above (s : Stage) : s.level ≤ s.above.level := by
  rw [level_above]
  exact le_min (by omega) s.le_capped

end Stage

/-! ## The rules -/

structure LivePerformance where
  edgeRetention : ℚ
  slippageRatio : ℚ
  liveDd : ℚ
  expectedDdP75 : ℚ
  expectedDdP90 : ℚ
  stressDdP95 : ℚ
  sampleSize : ℤ := 0
  minSample : ℤ := 30
  killSwitchTriggered : Bool := false
  adverseSelection : Bool := false
  executionFailure : Bool := false

inductive StageAction where
  | promote
  | hold
  | demote
  | kill
  | dead
  deriving DecidableEq, Repr

def StageAction.text : StageAction → String
  | .promote => "PROMOTE"
  | .hold => "HOLD"
  | .demote => "DEMOTE"
  | .kill => "KILL"
  | .dead => "DEAD"

structure StageDecision where
  fromStage : Stage
  toStage : Stage
  action : StageAction
  reason : String
  capitalFraction : ℚ

def StageDecision.render (d : StageDecision) : String :=
  s!"{d.fromStage.name} --{d.action.text}--> {d.toStage.name}" ++
    s!"  (capital {percent 1 d.capitalFraction})\n   reason: {d.reason}"

namespace LivePerformance

variable (perf : LivePerformance)

def kills : List String :=
  (if perf.stressDdP95 < perf.liveDd then
    [s!"live DD {percent 0 perf.liveDd} > stress p95 {percent 0 perf.stressDdP95}"] else []) ++
  (if perf.edgeRetention < 25 / 100 then
    [s!"edge retention {percent 0 perf.edgeRetention} < 25%"] else []) ++
  (if perf.adverseSelection then ["persistent adverse selection"] else []) ++
  (if perf.executionFailure then ["execution failure"] else []) ++
  (if perf.killSwitchTriggered then ["kill-switch triggered"] else [])

def dem : List String :=
  (if perf.edgeRetention < 50 / 100 then
    [s!"edge retention {percent 0 perf.edgeRetention} < 50%"] else []) ++
  (if 2 < perf.slippageRatio then
    [s!"slippage {Decimal.fixed 1 perf.slippageRatio}x > 2x"] else []) ++
  (if perf.expectedDdP90 < perf.liveDd then
    [s!"live DD {percent 0 perf.liveDd} > expected p90 {percent 0 perf.expectedDdP90}"] else [])

/-- Every criterion of a promotion. -/
def Promotable : Prop :=
  70 / 100 ≤ perf.edgeRetention ∧ perf.slippageRatio ≤ 15 / 10 ∧
    perf.liveDd ≤ perf.expectedDdP75 ∧ perf.minSample ≤ perf.sampleSize

instance : Decidable perf.Promotable :=
  inferInstanceAs (Decidable (_ ∧ _ ∧ _ ∧ _))

/-- Something kills. -/
def Killed : Prop :=
  perf.stressDdP95 < perf.liveDd ∨ perf.edgeRetention < 25 / 100 ∨
    perf.adverseSelection = true ∨ perf.executionFailure = true ∨ perf.killSwitchTriggered = true

/-- Something demotes. -/
def Demoted : Prop :=
  perf.edgeRetention < 50 / 100 ∨ 2 < perf.slippageRatio ∨ perf.expectedDdP90 < perf.liveDd

variable {perf}

theorem ite_eq_nil {p : Prop} [Decidable p] {text : String} :
    (if p then [text] else []) = [] ↔ ¬p := by
  split
  · next h => exact iff_of_false (List.cons_ne_nil _ _) (not_not.mpr h)
  · next h => exact iff_of_true rfl h

theorem kills_ne_nil_iff : perf.kills ≠ [] ↔ perf.Killed := by
  simp only [ne_eq, kills, Killed, List.append_eq_nil_iff, ite_eq_nil, not_and_or, not_not,
    or_assoc]

theorem dem_ne_nil_iff : perf.dem ≠ [] ↔ perf.Demoted := by
  simp only [ne_eq, dem, Demoted, List.append_eq_nil_iff, ite_eq_nil, not_and_or, not_not, or_assoc]

/-- The same thresholds, and no field worse. -/
structure AtLeastAsGood (p q : LivePerformance) : Prop where
  expectedDdP75 : q.expectedDdP75 = p.expectedDdP75
  expectedDdP90 : q.expectedDdP90 = p.expectedDdP90
  stressDdP95 : q.stressDdP95 = p.stressDdP95
  minSample : q.minSample = p.minSample
  edgeRetention : p.edgeRetention ≤ q.edgeRetention
  sampleSize : p.sampleSize ≤ q.sampleSize
  slippageRatio : q.slippageRatio ≤ p.slippageRatio
  liveDd : q.liveDd ≤ p.liveDd
  killSwitchTriggered : q.killSwitchTriggered = true → p.killSwitchTriggered = true
  adverseSelection : q.adverseSelection = true → p.adverseSelection = true
  executionFailure : q.executionFailure = true → p.executionFailure = true

variable {p q : LivePerformance}

theorem AtLeastAsGood.killed (h : AtLeastAsGood p q) (hq : q.Killed) : p.Killed := by
  rcases hq with hdd | hedge | hadverse | hexec | hswitch
  · rw [h.stressDdP95] at hdd
    exact Or.inl (hdd.trans_le h.liveDd)
  · exact Or.inr (Or.inl (h.edgeRetention.trans_lt hedge))
  · exact Or.inr (Or.inr (Or.inl (h.adverseSelection hadverse)))
  · exact Or.inr (Or.inr (Or.inr (Or.inl (h.executionFailure hexec))))
  · exact Or.inr (Or.inr (Or.inr (Or.inr (h.killSwitchTriggered hswitch))))

theorem AtLeastAsGood.demoted (h : AtLeastAsGood p q) (hq : q.Demoted) : p.Demoted := by
  rcases hq with hedge | hslip | hdd
  · exact Or.inl (h.edgeRetention.trans_lt hedge)
  · exact Or.inr (Or.inl (hslip.trans_le h.slippageRatio))
  · rw [h.expectedDdP90] at hdd
    exact Or.inr (Or.inr (hdd.trans_le h.liveDd))

theorem AtLeastAsGood.promotable (h : AtLeastAsGood p q) (hp : p.Promotable) : q.Promotable := by
  obtain ⟨hedge, hslip, hdd, hsample⟩ := hp
  refine ⟨hedge.trans h.edgeRetention, h.slippageRatio.trans hslip, ?_, ?_⟩
  · rw [h.expectedDdP75]
    exact h.liveDd.trans hdd
  · rw [h.minSample]
    exact hsample.trans h.sampleSize

end LivePerformance

open LivePerformance

/-- Worst case wins: kill, demote, promote, hold. -/
def evaluateStage (current : Stage) (perf : LivePerformance) : StageDecision :=
  if current = .dead then ⟨current, .dead, .dead, "already retired", 0⟩
  else if perf.kills ≠ [] then ⟨current, .dead, .kill, "; ".intercalate perf.kills, 0⟩
  else if perf.dem ≠ [] then
    ⟨current, current.below, .demote, "; ".intercalate perf.dem, current.below.capital⟩
  else if perf.Promotable then
    if current.above = current then
      ⟨current, current, .hold, "all criteria met but already at production cap", current.capital⟩
    else
      ⟨current, current.above, .promote,
        "edge retained, slippage in-model, DD<=p75, sample sufficient", current.above.capital⟩
  else
    ⟨current, current, .hold, "mixed but not dangerous — gather more live data", current.capital⟩

/-! ## The ruling -/

/-- The four rulings, by the rules alone. -/
inductive Ruling (perf : LivePerformance) (current : Stage) : Stage → Prop
  | kill : perf.Killed → Ruling perf current .dead
  | demote : ¬perf.Killed → perf.Demoted → Ruling perf current current.below
  | promote : ¬perf.Killed → ¬perf.Demoted → perf.Promotable → Ruling perf current current.above
  | hold : ¬perf.Killed → ¬perf.Demoted → ¬perf.Promotable → Ruling perf current current

theorem ruling {current : Stage} (h : current ≠ .dead) (perf : LivePerformance) :
    Ruling perf current (evaluateStage current perf).toStage := by
  rw [evaluateStage, if_neg h]
  by_cases hkill : perf.Killed
  · rw [if_pos (kills_ne_nil_iff.mpr hkill)]
    exact .kill hkill
  · rw [if_neg fun hne => hkill (kills_ne_nil_iff.mp hne)]
    by_cases hdem : perf.Demoted
    · rw [if_pos (dem_ne_nil_iff.mpr hdem)]
      exact .demote hkill hdem
    · rw [if_neg fun hne => hdem (dem_ne_nil_iff.mp hne)]
      by_cases hprom : perf.Promotable
      · rw [if_pos hprom]
        have hpromote : Ruling perf current current.above := .promote hkill hdem hprom
        split
        · next hcap => rwa [hcap] at hpromote
        · exact hpromote
      · rw [if_neg hprom]
        exact .hold hkill hdem hprom

theorem Ruling.le_above {perf : LivePerformance} {current s : Stage} (h : Ruling perf current s)
    (halive : current ≠ .dead) : s.level ≤ current.above.level := by
  cases h with
  | kill _ => exact Stage.dead_le _
  | demote _ _ => exact (Stage.below_le halive).trans current.le_above
  | promote _ _ _ => exact le_rfl
  | hold _ _ _ => exact current.le_above

/-- A worse performance is not ruled higher: what holds a better one back holds it back too. -/
theorem Ruling.mono {p q : LivePerformance} {current s t : Stage} (hp : Ruling p current s)
    (hq : Ruling q current t) (h : AtLeastAsGood p q) (halive : current ≠ .dead) :
    s.level ≤ t.level := by
  cases hq with
  | kill hkill =>
      cases hp with
      | kill _ => exact le_rfl
      | demote hnot _ => exact absurd (h.killed hkill) hnot
      | promote hnot _ _ => exact absurd (h.killed hkill) hnot
      | hold hnot _ _ => exact absurd (h.killed hkill) hnot
  | demote _ hdem =>
      cases hp with
      | kill _ => exact Stage.dead_le _
      | demote _ _ => exact le_rfl
      | promote _ hnot _ => exact absurd (h.demoted hdem) hnot
      | hold _ hnot _ => exact absurd (h.demoted hdem) hnot
  | promote _ _ _ => exact hp.le_above halive
  | hold _ _ hnot =>
      cases hp with
      | kill _ => exact Stage.dead_le _
      | demote _ _ => exact Stage.below_le halive
      | promote _ _ hprom => exact absurd (h.promotable hprom) hnot
      | hold _ _ _ => exact le_rfl

/-! ## Runs -/

/-- One evaluation after the other. -/
def stageAfter (current : Stage) (perfs : List LivePerformance) : Stage :=
  perfs.foldl (fun stage perf => (evaluateStage stage perf).toStage) current

theorem toStage_dead (perf : LivePerformance) : (evaluateStage .dead perf).toStage = .dead := rfl

theorem stageAfter_dead (perfs : List LivePerformance) : stageAfter .dead perfs = .dead := by
  induction perfs with
  | nil => rfl
  | cons perf perfs ih => exact ih

theorem stageAfter_append (current : Stage) (ps qs : List LivePerformance) :
    stageAfter current (ps ++ qs) = stageAfter (stageAfter current ps) qs := List.foldl_append

/-- A performance at least as good is not ruled lower, nobody climbs more than one rung, and the
dead stay dead. -/
theorem evaluateStage_monotone (current : Stage) {p q : LivePerformance} (h : AtLeastAsGood p q) :
    (evaluateStage current p).toStage.level ≤ (evaluateStage current q).toStage.level ∧
      (∀ perf, (evaluateStage current perf).toStage.level ≤ current.level + 1) ∧
      ∀ ps qs, stageAfter current ps = .dead → stageAfter current (ps ++ qs) = .dead := by
  refine ⟨?_, ?_, ?_⟩
  · by_cases hdead : current = .dead
    · rw [hdead, toStage_dead, toStage_dead]
    · exact (ruling hdead p).mono (ruling hdead q) h hdead
  · intro perf
    by_cases hdead : current = .dead
    · rw [hdead, toStage_dead]
      exact Int.le_add_of_nonneg_right zero_le_one
    · refine ((ruling hdead perf).le_above hdead).trans ?_
      rw [Stage.level_above]
      exact min_le_left _ _
  · intro ps qs hps
    rw [stageAfter_append, hps, stageAfter_dead]

/-- Live and within the model, with the drawdown as given. -/
def drawnDown (liveDd : ℚ) : LivePerformance where
  edgeRetention := 8 / 10
  slippageRatio := 12 / 10
  liveDd := liveDd
  expectedDdP75 := 15 / 100
  expectedDdP90 := 20 / 100
  stressDdP95 := 30 / 100
  sampleSize := 50

theorem evaluateStage_monotone_of_drawdown :
    (evaluateStage .microCapital (drawnDown (25 / 100))).toStage.level ≤
      (evaluateStage .microCapital (drawnDown (10 / 100))).toStage.level := by
  have hgood : AtLeastAsGood (drawnDown (25 / 100)) (drawnDown (10 / 100)) :=
    ⟨rfl, rfl, rfl, rfl, le_rfl, le_rfl, le_rfl, by norm_num [drawnDown], id, id, id⟩
  exact (evaluateStage_monotone .microCapital hgood).1

end TreasuryForge.Gate

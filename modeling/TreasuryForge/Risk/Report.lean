/-
# `Risk.Report` — the assessment a human reads before capital is risked

`assess_and_report` of `risk/report.py`.  The report always comes for a series that is not empty
(`assessAndReport_returns`).  Its drawdown, like the one of the funding backtest, is of the equity
after the first period; the consultants' starts with the capital before it.
`drawdowns_agree_iff` says for which returns that makes no difference.
-/
import TreasuryForge.Backtest.Funding
import TreasuryForge.Capital.Consultants

namespace TreasuryForge

namespace Risk

open Backtest Capital Drawdown Gate

inductive Assessed where
  | noEdge
  | notReliable
  | pathTooDangerous
  | deploySmall
  deriving DecidableEq, Repr

def Assessed.text : Assessed → String
  | .noEdge => "REJECT: NO_EDGE"
  | .notReliable => "REJECT: EDGE_IS_NOT_RELIABLE"
  | .pathTooDangerous => "REJECT: PATH_TOO_DANGEROUS"
  | .deploySmall => "ACCEPT: DEPLOY_SMALL"

structure ReportMetrics where
  mu : ℚ
  sigma : ℚ
  skew : ℚ
  kurt : ℚ
  sharpe : ℚ
  sortino : ℚ
  maxDd : ℚ
  profitFactor : Option ℚ

structure ReportValidation where
  dsr : ℚ
  dsrMin : ℚ
  cv : String
  regime : String

structure ReportSizing where
  kellyFull : ℚ
  dsrPct : ℚ
  tailDiscount : ℚ
  finalF : ℚ
  cap : ℚ

structure ReportRisk where
  logGrowth : Option ℚ
  pRuinNaive : ℚ
  pRuinStressed : ℚ
  maxPRuin : ℚ
  expectedDd : ℚ
  maxDd : ℚ

structure AssessmentReport where
  name : String
  verdict : Assessed
  metrics : ReportMetrics
  validation : ReportValidation
  sizing : ReportSizing
  risk : ReportRisk

/-- "passes everything" -/
def AssessmentReport.accepted (r : AssessmentReport) : Bool := r.verdict = .deploySmall

structure ReportParams where
  dsr : ℚ
  periodsPerYear : Option ℕ := none
  cvFolds : List ℚ := []
  dsrMin : ℚ := 60 / 100
  hardCap : ℚ := 3
  tailDiscount : ℚ := 1 / 2
  maxPRuin : ℚ := 5 / 100
  ruinDrawdown : ℚ := 30 / 100
  maxExpectedDrawdown : ℚ := 20 / 100
  adverseShift : Option ℚ := none
  tailShockProb : ℚ := 5 / 1000
  tailShockMult : ℚ := 6
  paths : ℤ := 4000
  seed : ℤ := 1

/-- The leverage to deploy: discounted Kelly, within the hard cap. -/
def ReportParams.finalF (p : ReportParams) (kellyFull : ℚ) : ℚ :=
  max (min p.hardCap (p.tailDiscount * max p.dsr 0 * kellyFull)) (1 / 10 ^ 6)

/-- The purged cross-validation in words. -/
def ReportParams.cv (p : ReportParams) : String :=
  match p.cvFolds.min? with
  | none => "n/a"
  | some least =>
      (if p.cvFolds.all (0 < ·) then "stable" else "UNSTABLE") ++
        s!" (min fold {signed least (Decimal.fixed 1 least)})"

/-- How much of the ruin comes with the stress; a ratio to nothing is infinite. -/
def sensitivity (naive stressed : ℚ) : String :=
  let above (k : ℚ) : Bool := if 1 / 10 ^ 9 < naive then k < stressed / naive else true
  if 5 / 100 < stressed ∧ above 3 then "high"
  else if above (3 / 2) then "moderate"
  else "low"

def ReportParams.verdict (p : ReportParams) (mu : ℚ) (stressed : MonteCarloRuinResult) : Assessed :=
  if mu ≤ 0 then .noEdge
  else if p.dsr < p.dsrMin then .notReliable
  else if ¬ (stressed.pRuin < p.maxPRuin ∧ stressed.expectedMaxDrawdown < p.maxExpectedDrawdown)
  then .pathTooDangerous
  else .deploySmall

section Assess

variable (m : Maths ℚ) (rng : Rng)

/-- A computation that may raise. -/
def raising {A : Type} : Except String A → Except Stop A
  | .error e => .error (.raised e)
  | .ok a => .ok a

/-- What the simulations run with: the path as it is, and under stress. -/
def ReportParams.calm (p : ReportParams) (kellyFull : ℚ) : RuinParams where
  leverage := p.finalF kellyFull
  ruinDrawdown := p.ruinDrawdown
  paths := p.paths
  seed := p.seed

def ReportParams.harsh (p : ReportParams) (kellyFull mu : ℚ) : RuinParams :=
  { p.calm kellyFull with
    adverseShift := p.adverseShift.getD (2 * mu)
    tailShockProb := p.tailShockProb
    tailShockMult := p.tailShockMult }

/-- The report on what was computed. -/
def ReportParams.report (p : ReportParams) (name : String) (returns eq : List ℚ) (mo : Moments)
    (kellyFull : ℚ) (naive stressed : MonteCarloRuinResult) (logG : Option ℚ) (sharpe : ℚ) :
    AssessmentReport where
  name := name
  verdict := p.verdict mo.mean stressed
  metrics := {
    mu := mo.mean, sigma := mo.std, skew := mo.skew, kurt := mo.kurt
    sharpe := sharpe
    sortino := sortinoRatio m returns p.periodsPerYear
    maxDd := maxDrawdown eq
    profitFactor := profitFactor returns }
  validation := {
    dsr := p.dsr, dsrMin := p.dsrMin, cv := p.cv
    regime := sensitivity naive.pRuin stressed.pRuin }
  sizing := {
    kellyFull := kellyFull, dsrPct := max p.dsr 0 * p.tailDiscount
    tailDiscount := p.tailDiscount, finalF := p.finalF kellyFull, cap := p.hardCap }
  risk := {
    logGrowth := logG, pRuinNaive := naive.pRuin, pRuinStressed := stressed.pRuin
    maxPRuin := p.maxPRuin, expectedDd := stressed.expectedMaxDrawdown
    maxDd := p.maxExpectedDrawdown }

def assessAndReport (name : String) (returns : List ℚ) (p : ReportParams) :
    Except Stop AssessmentReport := do
  let mo ← raising (moments m returns)
  let eq := equityCurve 1 returns
  let kellyFull ← kellyLeverage returns
  -- a block is never empty: as many draws as returns are enough
  let naive ← monteCarloRuin rng returns (p.calm kellyFull) returns.length
  let stressed ← monteCarloRuin rng returns (p.harsh kellyFull mo.mean) returns.length
  let logG ← geometricGrowth m returns (p.finalF kellyFull)
  let sharpe ← raising (sharpeRatio m returns p.periodsPerYear)
  return p.report m name returns eq mo kellyFull naive stressed logG sharpe

theorem moments_returns {returns : List ℚ} (hne : returns ≠ []) :
    ∃ mo, moments m returns = .ok mo := by
  unfold moments
  rw [if_neg hne]
  dsimp only
  split
  · split
    · exact ⟨_, rfl⟩
    · exact ⟨_, rfl⟩
  · exact ⟨_, if_pos rfl⟩

theorem sharpeRatio_returns {returns : List ℚ} (hne : returns ≠ []) (periodsPerYear : Option ℕ) :
    ∃ sr, sharpeRatio m returns periodsPerYear = .ok sr := by
  obtain ⟨mo, hmo⟩ := moments_returns m hne
  unfold sharpeRatio
  split
  · exact ⟨_, rfl⟩
  · rw [hmo]
    exact ⟨_, rfl⟩

theorem kellyLeverage_returns {returns : List ℚ} (hne : returns ≠ []) :
    ∃ k, kellyLeverage returns = .ok k := by
  unfold kellyLeverage meanVar
  rw [if_neg hne]
  exact ⟨_, rfl⟩

theorem geometricGrowth_returns {returns : List ℚ} (hne : returns ≠ []) (leverage : ℚ) :
    ∃ g, geometricGrowth m returns leverage = .ok g := by
  unfold geometricGrowth
  dsimp only
  split
  · exact ⟨_, rfl⟩
  · exact ⟨_, rfl⟩

/-- A series of returns is always assessed, and the drawdown reported is of its curve. -/
theorem assessAndReport_returns (name : String) {returns : List ℚ} (hne : returns ≠ [])
    {p : ReportParams} (hpaths : 0 < p.paths) :
    ∃ report, assessAndReport m rng name returns p = .ok report ∧
      report.metrics.maxDd = maxDrawdown (equityCurve 1 returns) := by
  obtain ⟨mo, hmo⟩ := moments_returns m hne
  obtain ⟨k, hk⟩ := kellyLeverage_returns hne
  obtain ⟨g, hg⟩ := geometricGrowth_returns m hne (p.finalF k)
  obtain ⟨sr, hsr⟩ := sharpeRatio_returns m hne p.periodsPerYear
  have hten : (1 : ℤ) ≤ 10 := by decide
  have hfuel : (returns.length : ℤ) ≤ returns.length := le_rfl
  obtain ⟨naive, hnaive⟩ := monteCarloRuin_returns rng hne (c := p.calm k) hten hpaths hfuel
  obtain ⟨stressed, hstressed⟩ :=
    monteCarloRuin_returns rng hne (c := p.harsh k mo.mean) hten hpaths hfuel
  refine ⟨p.report m name returns (equityCurve 1 returns) mo k naive stressed g sr, ?_, rfl⟩
  rw [assessAndReport, hmo, hk, hsr]
  show (monteCarloRuin rng returns (p.calm k) returns.length).bind _ = _
  rw [hnaive]
  show (monteCarloRuin rng returns (p.harsh k mo.mean) returns.length).bind _ = _
  rw [hstressed]
  show (geometricGrowth m returns (p.finalF k)).bind _ = _
  rw [hg]
  rfl

end Assess

/-! ## One drawdown or another -/

/-- Every beginning of the record falls no deeper than some stretch after the first period. -/
def FirstCovered (returns : List ℚ) : Prop :=
  ∀ p, p <+: returns → ∃ q, q <:+: returns.tail ∧ (factors q).prod ≤ (factors p).prod

/-- A first period without a loss is covered. -/
theorem firstCovered_of_gain {r : ℚ} {returns : List ℚ} (hr : 0 ≤ r)
    (h : ∀ r ∈ returns, 0 < 1 + r) : FirstCovered (r :: returns) := by
  intro p hp
  rcases List.prefix_cons_iff.mp hp with rfl | ⟨t, rfl, ht⟩
  · exact ⟨[], List.nil_infix, le_rfl⟩
  · refine ⟨t, ht.isInfix, ?_⟩
    have hpos : 0 < (factors t).prod :=
      Drawdown.prod_pos (factors_pos fun q hq => h q (ht.subset hq))
    show (factors t).prod ≤ (1 + r) * (factors t).prod
    exact le_mul_of_one_le_left hpos.le (by linarith)

theorem maxDrawdown_eq_iff {returns : List ℚ} (h : ∀ r ∈ returns, 0 < 1 + r) :
    maxDrawdown (equityCurve 1 returns) = -drawdownOf returns ↔ FirstCovered returns := by
  rw [maxDrawdown_equityCurve h, drawdownOf_eq h, neg_neg]
  cases returns with
  | nil =>
      refine iff_of_true rfl ?_
      intro p hp
      exact ⟨[], List.nil_infix, (List.prefix_nil.mp hp).symm ▸ le_rfl⟩
  | cons r returns =>
      have hr : 0 < 1 + r := h r List.mem_cons_self
      have hrest : ∀ f ∈ factors returns, 0 < f :=
        factors_pos fun q hq => h q (List.mem_cons_of_mem r hq)
      have hcons : factors (r :: returns) = (1 + r) :: factors returns := rfl
      rw [List.tail_cons, hcons, fall_cons_eq_iff hr hrest, ← hcons]
      constructor
      · intro hcover p hp
        obtain ⟨fs, hfs, hle⟩ := hcover (factors p) (List.prefix_map_iff.mpr ⟨p, hp, rfl⟩)
        obtain ⟨q, hq, rfl⟩ := List.infix_map_iff.mp hfs
        exact ⟨q, hq, hle⟩
      · intro hcover fs hfs
        obtain ⟨p, hp, rfl⟩ := List.prefix_map_iff.mp hfs
        obtain ⟨q, hq, hle⟩ := hcover p hp
        exact ⟨factors q, List.infix_map_iff.mpr ⟨q, hq, rfl⟩, hle⟩

/-- The drawdowns of the report and of the funding backtest are the consultants' exactly when the
first period is covered. -/
theorem drawdowns_agree_iff (m : Maths ℚ) (rng : Rng) (name : String) (p : ReportParams) :
    (∀ returns : List ℚ, returns ≠ [] → (∀ r ∈ returns, 0 < 1 + r) → 0 < p.paths →
      ∃ report, assessAndReport m rng name returns p = .ok report ∧
        (report.metrics.maxDd = -drawdownOf returns ↔ FirstCovered returns)) ∧
    ∀ (fundingRates : List ℚ) (params : Shadow.FundingCarryParams),
      let res := backtestFundingCarry fundingRates params
      (∀ r ∈ res.returns, 0 < 1 + r) →
        (res.maxDrawdown = -drawdownOf res.returns ↔ FirstCovered res.returns) := by
  constructor
  · intro returns hne h hpaths
    obtain ⟨report, hreport, hdd⟩ := assessAndReport_returns m rng name hne hpaths
    refine ⟨report, hreport, ?_⟩
    rw [hdd]
    exact maxDrawdown_eq_iff h
  · intro fundingRates params res h
    rw [FundingBacktestResult.maxDrawdown, backtestFundingCarry_equityCurve]
    exact maxDrawdown_eq_iff h

theorem drawdowns_agree_iff_of_gain :
    ∃ report, assessAndReport .decimal .lowest "s" [1 / 10, -1 / 2] { dsr := 1 } = .ok report ∧
      report.metrics.maxDd = -drawdownOf [1 / 10, -1 / 2] := by
  have hpos : ∀ r ∈ [(1 : ℚ) / 10, -1 / 2], 0 < 1 + r := by decide +kernel
  obtain ⟨report, hreport, hdd⟩ := (drawdowns_agree_iff .decimal .lowest "s" { dsr := 1 }).1
    [1 / 10, -1 / 2] (by decide) hpos (by decide)
  have hlater : ∀ r ∈ [(-1 : ℚ) / 2], 0 < 1 + r := fun r hr => hpos r (List.mem_cons_of_mem _ hr)
  exact ⟨report, hreport, hdd.mpr (firstCovered_of_gain (by norm_num) hlater)⟩

/-- Half of the capital lost in the only period: a report without a drawdown, and a veto. -/
theorem drawdowns_disagree :
    ∃ report, assessAndReport .decimal .lowest "s" [-1 / 2] { dsr := 1 } = .ok report ∧
      report.metrics.maxDd = 0 ∧ drawdownOf [-1 / 2] = -1 / 2 ∧
      (drawdown [-1 / 2]).approve = false := by
  obtain ⟨report, hreport, hdd⟩ := assessAndReport_returns .decimal .lowest "s"
    (List.cons_ne_nil (-1 / 2) []) (p := { dsr := 1 }) (by decide)
  refine ⟨report, hreport, ?_, by decide +kernel, by decide +kernel⟩
  rw [hdd]
  decide +kernel

end Risk

end TreasuryForge

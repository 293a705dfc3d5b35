/-
# `Shadow.Screener` — is the carry worth its costs?

`fill_model.py` and `carry_screener.py` over exact fractions, with the square root and `erf` of any
mathematics.  A passive order fills with some probability and is crossed as a taker otherwise; the
screener sets what the funding can bring against that cost.

A better market is never judged worse (`screenCoin_mono`): each step, from the probability to the
verdict, is monotone.
-/
import TreasuryForge.Signals.Linalg
import Mathlib.Algebra.Order.Field.Rat
import Mathlib.Order.Monotone.Basic
import Mathlib.Tactic.GCongr
import Mathlib.Tactic.Linarith
import Mathlib.Tactic.Positivity

namespace TreasuryForge

namespace Shadow

/-! ## The fill model -/

structure FillModelParams where
  makerFee : ℚ := 15 / 100000
  takerFee : ℚ := 45 / 100000
  maxMakerWait : ℤ := 3
  adverseBps : ℚ := 1 / 10000

structure FillEstimate where
  expectedCost : ℚ
  makerFillProb : ℚ
  adverseSelection : ℚ
  takerFallbackProb : ℚ

variable (m : Maths ℚ) (erf : ℚ → ℚ)

/-- `_phi` -/
def phi (x : ℚ) : ℚ := 1 / 2 * (1 + erf (x / m.sqrt 2))

def makerFillProbability (halfSpread sigmaWindow : ℚ) : ℚ :=
  if sigmaWindow ≤ 1 / 10 ^ 12 then 0
  else if halfSpread ≤ 0 then 1
  else min 1 (2 * (1 - phi m erf (halfSpread / sigmaWindow)))

def estimateLegCost (params : FillModelParams) (spread vol : ℚ) : FillEstimate :=
  let half := spread / 2
  let sigmaW := vol * m.sqrt (max params.maxMakerWait 1 : ℤ)
  let p := makerFillProbability m erf half sigmaW
  { expectedCost := p * (params.makerFee + params.adverseBps) + (1 - p) * params.takerFee
    makerFillProb := p, adverseSelection := p * params.adverseBps, takerFallbackProb := 1 - p }

def roundTripCost (params : FillModelParams) (spread vol : ℚ) (legs : ℤ) : ℚ :=
  legs * (estimateLegCost m erf params spread vol).expectedCost

/-! ## The screener -/

inductive ScreenVerdict where
  | noTrade
  | watch
  | paper
  | microEligible
  | liveEligible
  deriving DecidableEq, Repr

/-- How far up the verdict is. -/
def ScreenVerdict.rank : ScreenVerdict → ℕ
  | .noTrade => 0
  | .watch => 1
  | .paper => 2
  | .microEligible => 3
  | .liveEligible => 4

structure ScreenParams where
  holdHours : ℤ := 8
  marginBps : ℚ := 1 / 10000
  liqBuffer : ℚ := 5 / 100000
  maxCostRatio : ℚ := 35 / 100
  legs : ℤ := 4
  fill : FillModelParams := {}

structure CarryOpportunity where
  coin : String
  fundingApr : ℚ
  expectedFunding : ℚ
  expectedConvergence : ℚ
  roundTripCost : ℚ
  netEdge : ℚ
  verdict : ScreenVerdict

/-- The cost ratio is above the bound; it is infinite where there is nothing to pay costs from. -/
def costHeavy (net gross bound : ℚ) : Prop := 1 / 10 ^ 12 < gross → bound < (gross - net) / gross

instance (net gross bound : ℚ) : Decidable (costHeavy net gross bound) :=
  inferInstanceAs (Decidable (_ → _))

/-- The end of `_classify`: how far the evidence goes. -/
def evidence (dsr shadowDays : Option ℚ) : ScreenVerdict :=
  match dsr, shadowDays with
  | some dsr, some days =>
      if 60 / 100 ≤ dsr ∧ 30 ≤ days then .liveEligible
      else if 60 / 100 ≤ dsr ∧ 7 ≤ days then .microEligible
      else .paper
  | _, _ => .paper

/-- `_classify` -/
def classify (net gross : ℚ) (p : ScreenParams) (dsr shadowDays : Option ℚ) : ScreenVerdict :=
  if net ≤ 0 then .noTrade
  else if net < p.marginBps ∨ costHeavy net gross p.maxCostRatio then .watch
  else evidence dsr shadowDays

/-- What is known of a coin. -/
structure Candidate where
  coin : String
  funding : ℚ
  premium : ℚ := 0
  spread : ℚ
  vol : ℚ
  fundingPred : Option ℚ := none
  dsr : Option ℚ := none
  shadowDays : Option ℚ := none

def screenCoin (params : ScreenParams) (c : Candidate) : CarryOpportunity :=
  let expectedFunding := c.fundingPred.getD c.funding * params.holdHours
  let expectedConv := max c.premium 0
  let gross := expectedFunding + expectedConv
  let rtc := roundTripCost m erf params.fill c.spread c.vol params.legs
  let net := gross - rtc - params.liqBuffer
  { coin := c.coin, fundingApr := c.funding * (24 * 365), expectedFunding
    expectedConvergence := expectedConv, roundTripCost := rtc, netEdge := net
    verdict := classify net gross params c.dsr c.shadowDays }

/-! ## A better market -/

/-- What is known of the square root and of `erf`. -/
structure ErfLike (m : Maths ℚ) (erf : ℚ → ℚ) : Prop where
  sqrt_nonneg : ∀ x, 0 ≤ x → 0 ≤ m.sqrt x
  mono : Monotone erf
  zero : erf 0 = 0
  le_one : ∀ x, erf x ≤ 1

/-- Resting is no dearer than crossing, and neither pays. -/
structure FillModelParams.Sane (p : FillModelParams) : Prop where
  nonneg : 0 ≤ p.makerFee + p.adverseBps
  passive : p.makerFee + p.adverseBps ≤ p.takerFee

structure ScreenParams.Sane (p : ScreenParams) : Prop where
  hold : 0 ≤ p.holdHours
  legs : 0 ≤ p.legs
  buffer : 0 ≤ p.liqBuffer
  fill : p.fill.Sane

/-- At least what the other one is, if that is known. -/
def AtLeast (a b : Option ℚ) : Prop := ∀ x ∈ a, ∃ y ∈ b, x ≤ y

/-- The second market is at least as good as the first. -/
structure Candidate.Improves (c c' : Candidate) : Prop where
  forecast : c.fundingPred.getD c.funding ≤ c'.fundingPred.getD c'.funding
  premium : c.premium ≤ c'.premium
  spread : c'.spread ≤ c.spread
  vol : c.vol ≤ c'.vol
  dsr : AtLeast c.dsr c'.dsr
  shadowDays : AtLeast c.shadowDays c'.shadowDays

variable {m erf}

theorem phi_mono (h : ErfLike m erf) : Monotone (phi m erf) := by
  intro x y hxy
  have hroot := h.sqrt_nonneg 2 (by norm_num)
  have herf : erf (x / m.sqrt 2) ≤ erf (y / m.sqrt 2) :=
    h.mono (div_le_div_of_nonneg_right hxy hroot)
  unfold phi
  linarith

theorem phi_bounds (h : ErfLike m erf) {x : ℚ} (hx : 0 ≤ x) :
    1 / 2 ≤ phi m erf x ∧ phi m erf x ≤ 1 := by
  have hroot := h.sqrt_nonneg 2 (by norm_num)
  have hlow : erf 0 ≤ erf (x / m.sqrt 2) := h.mono (div_nonneg hx hroot)
  have hhigh := h.le_one (x / m.sqrt 2)
  rw [h.zero] at hlow
  unfold phi
  constructor
  · linarith
  · linarith

theorem makerFillProbability_bounds (h : ErfLike m erf) (halfSpread sigmaWindow : ℚ) :
    0 ≤ makerFillProbability m erf halfSpread sigmaWindow ∧
      makerFillProbability m erf halfSpread sigmaWindow ≤ 1 := by
  unfold makerFillProbability
  split
  · simp
  · next hvol =>
      split
      · simp
      · next hhalf =>
          have hratio : 0 ≤ halfSpread / sigmaWindow :=
            div_nonneg (not_le.mp hhalf).le (by linarith)
          obtain ⟨-, hphi⟩ := phi_bounds h hratio
          exact ⟨le_min zero_le_one (by linarith), min_le_left _ _⟩

/-- A narrower spread or a wider swing fills more often. -/
theorem makerFillProbability_mono (h : ErfLike m erf) {half half' sigma sigma' : ℚ}
    (hhalf : half' ≤ half) (hsigma : sigma ≤ sigma') :
    makerFillProbability m erf half sigma ≤ makerFillProbability m erf half' sigma' := by
  by_cases hstill : sigma ≤ 1 / 10 ^ 12
  · have hzero : makerFillProbability m erf half sigma = 0 := if_pos hstill
    rw [hzero]
    exact (makerFillProbability_bounds h half' sigma').1
  · have hmoves : ¬ sigma' ≤ 1 / 10 ^ 12 := fun hle => hstill (hsigma.trans hle)
    by_cases hclosed : half' ≤ 0
    · have hone : makerFillProbability m erf half' sigma' = 1 := by
        rw [makerFillProbability, if_neg hmoves, if_pos hclosed]
      rw [hone]
      exact (makerFillProbability_bounds h half sigma).2
    · have hopen : ¬ half ≤ 0 := fun hle => hclosed (hhalf.trans hle)
      have hpos : 0 < sigma := by linarith
      have hratio : half' / sigma' ≤ half / sigma :=
        div_le_div₀ (not_le.mp hopen).le hhalf hpos hsigma
      have hphi := phi_mono h hratio
      simp only [makerFillProbability, hstill, hmoves, hclosed, hopen, if_false]
      exact min_le_min le_rfl (by linarith)

theorem expectedCost_bounds (h : ErfLike m erf) {p : FillModelParams} (hp : p.Sane)
    (spread vol : ℚ) :
    p.makerFee + p.adverseBps ≤ (estimateLegCost m erf p spread vol).expectedCost ∧
      (estimateLegCost m erf p spread vol).expectedCost ≤ p.takerFee := by
  have hpassive := hp.passive
  simp only [estimateLegCost]
  generalize hprob : makerFillProbability m erf _ _ = prob
  obtain ⟨hlow, hhigh⟩ := makerFillProbability_bounds h (spread / 2)
    (vol * m.sqrt (max p.maxMakerWait 1 : ℤ))
  rw [hprob] at hlow hhigh
  constructor
  · nlinarith
  · nlinarith

theorem expectedCost_anti (h : ErfLike m erf) {p : FillModelParams} (hp : p.Sane)
    {spread spread' vol vol' : ℚ} (hspread : spread' ≤ spread) (hvol : vol ≤ vol') :
    (estimateLegCost m erf p spread' vol').expectedCost ≤
      (estimateLegCost m erf p spread vol).expectedCost := by
  have hpassive := hp.passive
  have hwait : (0 : ℚ) ≤ (max p.maxMakerWait 1 : ℤ) := by
    exact_mod_cast le_trans zero_le_one (le_max_right p.maxMakerWait 1)
  have hroot := h.sqrt_nonneg _ hwait
  have hhalf : spread' / 2 ≤ spread / 2 := div_le_div_of_nonneg_right hspread two_pos.le
  have hprob := makerFillProbability_mono h hhalf (mul_le_mul_of_nonneg_right hvol hroot)
  simp only [estimateLegCost]
  nlinarith

/-- A higher edge, more to pay the cost from and no higher cost: the cost weighs no more. -/
theorem costHeavy_anti {net net' gross gross' bound : ℚ} (hcost : 0 ≤ gross - net)
    (hgross : gross ≤ gross') (hless : gross' - net' ≤ gross - net)
    (h : costHeavy net' gross' bound) : costHeavy net gross bound := by
  intro hpays
  have hpays' : 1 / 10 ^ 12 < gross' := hpays.trans_le hgross
  refine (h hpays').trans_le ?_
  have hpos : 0 < gross := by linarith
  calc (gross' - net') / gross' ≤ (gross - net) / gross' :=
        div_le_div_of_nonneg_right hless (by linarith)
    _ ≤ (gross - net) / gross := div_le_div_of_nonneg_left hcost hpos hgross

theorem evidence_paper (dsr days : Option ℚ) : 2 ≤ (evidence dsr days).rank := by
  unfold evidence
  split
  · split
    · decide
    · split
      · decide
      · decide
  · decide

theorem evidence_mono {dsr dsr' days days' : Option ℚ} (hdsr : AtLeast dsr dsr')
    (hdays : AtLeast days days') : (evidence dsr days).rank ≤ (evidence dsr' days').rank := by
  cases dsr with
  | none => exact evidence_paper dsr' days'
  | some d =>
      cases days with
      | none => exact evidence_paper dsr' days'
      | some n =>
          obtain ⟨d', hd, hdle⟩ := hdsr d rfl
          obtain ⟨n', hn, hnle⟩ := hdays n rfl
          cases hd
          cases hn
          by_cases hlive : 60 / 100 ≤ d ∧ 30 ≤ n
          · have hlive' : 60 / 100 ≤ d' ∧ 30 ≤ n' := ⟨hlive.1.trans hdle, hlive.2.trans hnle⟩
            simp only [evidence, hlive, hlive', and_self, if_true, le_refl]
          · by_cases hmicro : 60 / 100 ≤ d ∧ 7 ≤ n
            · have hmicro' : 60 / 100 ≤ d' ∧ 7 ≤ n' :=
                ⟨hmicro.1.trans hdle, hmicro.2.trans hnle⟩
              simp only [evidence]
              rw [if_neg hlive, if_pos hmicro, if_pos hmicro']
              split
              · exact Nat.le_succ 3
              · exact le_rfl
            · simp only [evidence, hlive, hmicro, if_false]
              exact evidence_paper (some d') (some n')

theorem classify_mono {net net' gross gross' : ℚ} {p : ScreenParams}
    {dsr dsr' days days' : Option ℚ} (hnet : net ≤ net') (hcost : 0 ≤ gross - net)
    (hgross : gross ≤ gross') (hless : gross' - net' ≤ gross - net) (hdsr : AtLeast dsr dsr')
    (hdays : AtLeast days days') :
    (classify net gross p dsr days).rank ≤ (classify net' gross' p dsr' days').rank := by
  by_cases hpays : net ≤ 0
  · simp only [classify, hpays, if_true]
    exact Nat.zero_le _
  · have hpays' : ¬ net' ≤ 0 := fun hle => hpays (hnet.trans hle)
    by_cases hthin : net < p.marginBps ∨ costHeavy net gross p.maxCostRatio
    · rw [classify, if_neg hpays, if_pos hthin, classify, if_neg hpays']
      split
      · exact le_rfl
      · exact le_trans (by decide) (evidence_paper dsr' days')
    · have hthick : ¬ (net' < p.marginBps ∨ costHeavy net' gross' p.maxCostRatio) := by
        rintro (hlow | hheavy)
        · exact hthin (Or.inl (hnet.trans_lt hlow))
        · exact hthin (Or.inr (costHeavy_anti hcost hgross hless hheavy))
      rw [classify, if_neg hpays, if_neg hthin, classify, if_neg hpays', if_neg hthick]
      exact evidence_mono hdsr hdays

/-- In a market that is at least as good, with at least as much evidence, the edge is no lower and
the verdict no further down; and the cost of the legs is between resting and crossing. -/
theorem screenCoin_mono (h : ErfLike m erf) {params : ScreenParams} (hp : params.Sane)
    {c c' : Candidate} (hc : c.Improves c') :
    (screenCoin m erf params c).netEdge ≤ (screenCoin m erf params c').netEdge ∧
    (screenCoin m erf params c).verdict.rank ≤ (screenCoin m erf params c').verdict.rank ∧
    params.legs * (params.fill.makerFee + params.fill.adverseBps) ≤
      (screenCoin m erf params c).roundTripCost ∧
    (screenCoin m erf params c).roundTripCost ≤ params.legs * params.fill.takerFee := by
  have hlegs : (0 : ℚ) ≤ params.legs := by exact_mod_cast hp.legs
  have hhold : (0 : ℚ) ≤ params.holdHours := by exact_mod_cast hp.hold
  have hbuffer := hp.buffer
  obtain ⟨hlow, hhigh⟩ := expectedCost_bounds h hp.fill c.spread c.vol
  have hcheaper : roundTripCost m erf params.fill c'.spread c'.vol params.legs ≤
      roundTripCost m erf params.fill c.spread c.vol params.legs :=
    mul_le_mul_of_nonneg_left (expectedCost_anti h hp.fill hc.spread hc.vol) hlegs
  have hpays : 0 ≤ roundTripCost m erf params.fill c.spread c.vol params.legs :=
    mul_nonneg hlegs (hp.fill.nonneg.trans hlow)
  have hfunding := mul_le_mul_of_nonneg_right hc.forecast hhold
  have hconvergence : max c.premium 0 ≤ max c'.premium 0 := max_le_max hc.premium le_rfl
  refine ⟨?_, ?_, ?_, ?_⟩
  · simp only [screenCoin]
    linarith
  · refine classify_mono ?_ ?_ ?_ ?_ hc.dsr hc.shadowDays
    · linarith
    · linarith
    · linarith
    · linarith
  · exact mul_le_mul_of_nonneg_left hlow hlegs
  · exact mul_le_mul_of_nonneg_left hhigh hlegs

/-! ### Two markets -/

/-- Between zero and one. -/
def ramp (x : ℚ) : ℚ := max 0 (min 1 x)

/-- What `erf` gains on each half up to three, in units of `1e-10`. -/
def erfGains : List (ℕ × ℕ) :=
  [(0, 5204998778), (1, 3222009151), (2, 1234043536), (3, 292171185), (4, 42707830), (5, 3848615)]

/-- `erf` at the halves to ten decimals, and straight between them. -/
def erfTable (x : ℚ) : ℚ :=
  (erfGains.map fun g => (g.2 : ℚ) / 10 ^ 10 * (ramp (2 * x - g.1) - ramp (-(2 * x) - g.1))).sum

theorem ramp_mono : Monotone ramp := fun _ _ h => max_le_max le_rfl (min_le_min le_rfl h)

theorem ramp_bounds (x : ℚ) : 0 ≤ ramp x ∧ ramp x ≤ 1 :=
  ⟨le_max_left _ _, max_le zero_le_one (min_le_left _ _)⟩

theorem erfTable_erfLike : ErfLike .decimal erfTable where
  sqrt_nonneg x _ := by
    simp only [Maths.decimal]
    positivity
  mono := by
    intro x y hxy
    refine List.sum_le_sum fun g _ => mul_le_mul_of_nonneg_left ?_ (by positivity)
    have hright := ramp_mono (show 2 * x - g.1 ≤ 2 * y - g.1 by linarith)
    have hleft := ramp_mono (show -(2 * y) - (g.1 : ℚ) ≤ -(2 * x) - g.1 by linarith)
    linarith
  zero := by simp [erfTable]
  le_one x := by
    have hgain : erfTable x ≤ (erfGains.map fun g => (g.2 : ℚ) / 10 ^ 10 * 1).sum := by
      refine List.sum_le_sum fun g _ => mul_le_mul_of_nonneg_left ?_ (by positivity)
      have hright := (ramp_bounds (2 * x - g.1)).2
      have hleft := (ramp_bounds (-(2 * x) - g.1)).1
      linarith
    refine hgain.trans ?_
    norm_num [erfGains]

/-- A coin that fills halfway up the first half of `erf`, and the same at a higher rate. -/
def resting : Candidate :=
  { coin := "ETH", funding := 1 / 10000, spread := 1414213562373 / 10 ^ 15, vol := 1 / 1000 }

def richer : Candidate := { resting with funding := 1 / 1000, dsr := some 1, shadowDays := some 8 }

theorem screenCoin_mono_richer :
    (screenCoin .decimal erfTable { fill := { maxMakerWait := 1 } } resting).verdict = .noTrade ∧
    (screenCoin .decimal erfTable { fill := { maxMakerWait := 1 } } richer).verdict =
      .microEligible ∧
    (screenCoin .decimal erfTable { fill := { maxMakerWait := 1 } } resting).netEdge ≤
      (screenCoin .decimal erfTable { fill := { maxMakerWait := 1 } } richer).netEdge := by
  refine ⟨by decide +kernel, by decide +kernel, ?_⟩
  have hnone : ∀ b, AtLeast none b := fun b x hx => nomatch hx
  have himproves : resting.Improves richer :=
    ⟨by decide +kernel, le_rfl, le_rfl, le_rfl, hnone _, hnone _⟩
  have hsane : ScreenParams.Sane { fill := { maxMakerWait := 1 } } :=
    ⟨by decide, by decide, by decide +kernel, by decide +kernel, by decide +kernel⟩
  exact (screenCoin_mono erfTable_erfLike hsane himproves).1

end Shadow

end TreasuryForge

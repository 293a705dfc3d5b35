/-
# `Capital.EconomicGate` — the gate on what a spread nets

`economic_gate.py` behind `cross_venue_economics.py`.  The gate reads three figures of the economics
and a duty cycle; `economicGate_iff` says in terms of the spread itself what it lets through, and
that a wider spread, a longer hold or more time on never lowers its verdict.
-/
import TreasuryForge.Capital.Consultants
import TreasuryForge.Capital.CrossVenue

namespace TreasuryForge

namespace Capital

open Gate

inductive GateResult where
  | corpse
  | reject
  | pass
  deriving DecidableEq, Repr

def GateResult.rank : GateResult → ℕ
  | .corpse => 0
  | .reject => 1
  | .pass => 2

/-- Where a figure is `none`, it is infinite, or no number. -/
structure EconomicVerdict where
  result : GateResult
  costGrossRatio : Option ℚ
  effectiveApr : Option ℚ
  reason : String

/-- `effective_apr`, where the return is finite. -/
def CrossVenueEconomics.effectiveApr (e : CrossVenueEconomics) (dutyCycle : ℚ) : Option ℚ :=
  e.netAprOnTotalCapital.map (· * dutyCycle)

/-- How an infinite loss on the notional is written, by this capital and duty. -/
def infiniteText (lockedRatio dutyCycle : ℚ) : String :=
  if lockedRatio * dutyCycle = 0 then "+nan%"
  else if 0 < lockedRatio * dutyCycle then "-inf%" else "+inf%"

def economicGate (econ : CrossVenueEconomics) (dutyCycle : ℚ) (maxCostGross : ℚ := 35 / 100)
    (minEffectiveApr : ℚ := 0) : EconomicVerdict :=
  let gross := econ.grossSpreadApr
  if gross ≤ 0 then ⟨.corpse, none, some 0, "no spread"⟩
  else
    match econ.netFundingAprOnNotional, econ.effectiveApr dutyCycle with
    | some net, some eff =>
        let ratio := (gross - net) / gross
        if 1 ≤ ratio ∨ eff ≤ 0 then
          ⟨.corpse, some ratio, some eff,
            s!"cost/gross {percent 0 ratio}, effective {signedPercent 1 eff}"⟩
        else if maxCostGross < ratio ∨ eff < minEffectiveApr then
          ⟨.reject, some ratio, some eff,
            s!"cost/gross {percent 0 ratio} > {percent 0 maxCostGross} or " ++
              s!"eff {signedPercent 1 eff} thin"⟩
        else
          ⟨.pass, some ratio, some eff,
            s!"eff {signedPercent 1 eff}, cost/gross {percent 0 ratio}"⟩
    | _, _ =>
        ⟨.corpse, none, none,
          s!"cost/gross inf%, effective {infiniteText econ.totalLockedRatio dutyCycle}"⟩

variable {p : CrossVenueParams} {spreadApr holdHours duty maxCost minApr : ℚ}

/-- What the hold costs the notional by the year. -/
def CrossVenueParams.notionalCost (p : CrossVenueParams) (holdHours : ℚ) : ℚ :=
  p.oneTime * hoursPerYear / holdHours + p.notionalDrag

/-- What is left of the spread above its floor, on the capital, for the time it is on. -/
def CrossVenueParams.effective (p : CrossVenueParams) (spreadApr holdHours duty : ℚ) : ℚ :=
  (spreadApr - p.floor holdHours) / p.locked * duty

/-- The gate on the economics of this spread and hold. -/
def gateOn (p : CrossVenueParams) (spreadApr holdHours duty maxCost minApr : ℚ) :
    Except String GateResult := do
  return (economicGate (← crossVenueEconomics spreadApr holdHours p) duty maxCost minApr).result

theorem notionalCost_nonneg (hcosts : p.NonnegCosts) (hhold : 0 < holdHours) :
    0 ≤ p.notionalCost holdHours :=
  add_nonneg (div_nonneg (mul_nonneg hcosts.oneTime hoursPerYear_pos.le) hhold.le)
    hcosts.notionalDrag

theorem notionalCost_le_floor (hcosts : p.NonnegCosts) (holdHours : ℚ) :
    p.notionalCost holdHours ≤ p.floor holdHours := by
  have hcapital : 0 ≤ (p.opportunityCostApr + p.exchangeRiskApr) * p.locked * p.locked := by
    rw [mul_assoc]
    exact mul_nonneg (add_nonneg hcosts.opportunityCostApr hcosts.exchangeRiskApr)
      (mul_self_nonneg _)
  exact le_add_of_nonneg_right hcapital

/-- The figures that the gate reads. -/
theorem economics_figures (spreadApr duty : ℚ) (hleverage : 0 < p.leverage)
    (hbuffer : -1 < p.liqBufferFrac) (hhold : 0 < holdHours) :
    ∃ e, crossVenueEconomics spreadApr holdHours p = .ok e ∧
      e.grossSpreadApr = spreadApr ∧
      e.netFundingAprOnNotional = some (spreadApr - p.notionalCost holdHours) ∧
      e.effectiveApr duty = some (p.effective spreadApr holdHours duty) := by
  have hlocked := locked_pos hleverage hbuffer
  rw [crossVenueEconomics, amortised_eq hhold, capitalDrag_eq hleverage, lockedRatio_eq hleverage]
  refine ⟨_, if_neg hlocked.ne', rfl, ?_, ?_⟩
  · refine congrArg some ?_
    rw [CrossVenueParams.notionalCost]
    ring
  · refine congrArg some ?_
    rw [CrossVenueParams.effective, CrossVenueParams.floor]
    field_simp
    ring

/-- The gate, in terms of the spread. -/
theorem gateOn_eq (hcosts : p.NonnegCosts) (hleverage : 0 < p.leverage)
    (hbuffer : -1 < p.liqBufferFrac) (hhold : 0 < holdHours) (hduty : 0 ≤ duty) :
    gateOn p spreadApr holdHours duty maxCost minApr = .ok (
      if spreadApr ≤ p.floor holdHours ∨ duty = 0 then .corpse
      else if p.notionalCost holdHours ≤ maxCost * spreadApr ∧
        minApr ≤ p.effective spreadApr holdHours duty then .pass
      else .reject) := by
  obtain ⟨e, he, hgross, hnet, heff⟩ :=
    economics_figures spreadApr duty hleverage hbuffer hhold
  have hlocked := locked_pos hleverage hbuffer
  have hcost := notionalCost_nonneg hcosts hhold
  have hfloor := notionalCost_le_floor hcosts holdHours
  have hresult : gateOn p spreadApr holdHours duty maxCost minApr =
      .ok (economicGate e duty maxCost minApr).result := by
    rw [gateOn, he]
    rfl
  rw [hresult, economicGate, hgross, hnet, heff]
  refine congrArg Except.ok ?_
  simp only [sub_sub_cancel]
  by_cases hspread : spreadApr ≤ 0
  · rw [if_pos hspread, if_pos (Or.inl (hspread.trans (hcost.trans hfloor)))]
  · have hpos := not_le.mp hspread
    have hratio : 1 ≤ p.notionalCost holdHours / spreadApr ↔
        spreadApr ≤ p.notionalCost holdHours := one_le_div hpos
    have heffective : p.effective spreadApr holdHours duty ≤ 0 ↔
        spreadApr ≤ p.floor holdHours ∨ duty = 0 := by
      rw [CrossVenueParams.effective]
      constructor
      · intro hle
        by_contra hno
        push Not at hno
        have hsome : 0 < duty := lt_of_le_of_ne hduty (Ne.symm hno.2)
        exact absurd hle (not_le.mpr (mul_pos (div_pos (sub_pos.mpr hno.1) hlocked) hsome))
      · rintro (hle | rfl)
        · exact mul_nonpos_of_nonpos_of_nonneg
            (div_nonpos_of_nonpos_of_nonneg (sub_nonpos.mpr hle) hlocked.le) hduty
        · simp
    have hcorpse : (1 ≤ p.notionalCost holdHours / spreadApr ∨
        p.effective spreadApr holdHours duty ≤ 0) ↔
        spreadApr ≤ p.floor holdHours ∨ duty = 0 := by
      rw [hratio, heffective]
      refine or_iff_right_of_imp ?_
      intro hle
      exact Or.inl (hle.trans hfloor)
    have hthin : maxCost < p.notionalCost holdHours / spreadApr ↔
        maxCost * spreadApr < p.notionalCost holdHours := lt_div_iff₀ hpos
    rw [if_neg hspread]
    by_cases hdead : spreadApr ≤ p.floor holdHours ∨ duty = 0
    · rw [if_pos (hcorpse.mpr hdead), if_pos hdead]
    · rw [if_neg (mt hcorpse.mp hdead), if_neg hdead]
      by_cases hpass : p.notionalCost holdHours ≤ maxCost * spreadApr ∧
          minApr ≤ p.effective spreadApr holdHours duty
      · rw [if_pos hpass, if_neg]
        rw [hthin]
        rintro (hlt | hlt)
        · exact absurd hlt (not_lt.mpr hpass.1)
        · exact absurd hlt (not_lt.mpr hpass.2)
      · rw [if_neg hpass, if_pos]
        rw [hthin]
        by_contra hno
        push Not at hno
        exact hpass hno

theorem notionalCost_anti (hcosts : p.NonnegCosts) (hhold : 0 < holdHours) {holdHours' : ℚ}
    (hle : holdHours ≤ holdHours') : p.notionalCost holdHours' ≤ p.notionalCost holdHours := by
  have hcost : 0 ≤ p.oneTime * hoursPerYear := mul_nonneg hcosts.oneTime hoursPerYear_pos.le
  exact add_le_add_left (div_le_div_of_nonneg_left hcost hhold hle) _

/-- Above the floor, what is kept grows with the spread, with the hold and with the time on. -/
theorem effective_mono (hcosts : p.NonnegCosts) (hlocked : 0 < p.locked) (hhold : 0 < holdHours)
    (hduty : 0 ≤ duty) {spreadApr' holdHours' duty' : ℚ}
    (habove : p.floor holdHours ≤ spreadApr) (hspreads : spreadApr ≤ spreadApr')
    (hholds : holdHours ≤ holdHours') (hduties : duty ≤ duty') :
    p.effective spreadApr holdHours duty ≤ p.effective spreadApr' holdHours' duty' := by
  have hkept : (spreadApr - p.floor holdHours) / p.locked ≤
      (spreadApr' - p.floor holdHours') / p.locked :=
    div_le_div_of_nonneg_right (sub_le_sub hspreads (hcosts.floor_anti hhold hholds)) hlocked.le
  have hnonneg : 0 ≤ (spreadApr - p.floor holdHours) / p.locked :=
    div_nonneg (sub_nonneg.mpr habove) hlocked.le
  exact mul_le_mul hkept hduties hduty (hnonneg.trans hkept)

variable (spreadApr maxCost minApr) in
/-- The gate passes what clears its floor for some of the time, with its costs within their share
of the spread and enough of it kept; and no verdict is lowered by a wider spread, a longer hold or
more time on. -/
theorem economicGate_iff (hcosts : p.NonnegCosts) (hleverage : 0 < p.leverage)
    (hbuffer : -1 < p.liqBufferFrac) (hhold : 0 < holdHours) (hduty : 0 ≤ duty) :
    ∃ verdict, gateOn p spreadApr holdHours duty maxCost minApr = .ok verdict ∧
      (verdict = .corpse ↔ spreadApr ≤ p.floor holdHours ∨ duty = 0) ∧
      (verdict = .pass ↔ p.floor holdHours < spreadApr ∧ 0 < duty ∧
        p.notionalCost holdHours ≤ maxCost * spreadApr ∧
        minApr ≤ p.effective spreadApr holdHours duty) ∧
      ∀ spreadApr' holdHours' duty', spreadApr ≤ spreadApr' → holdHours ≤ holdHours' →
        duty ≤ duty' → ∃ verdict',
          gateOn p spreadApr' holdHours' duty' maxCost minApr = .ok verdict' ∧
          verdict.rank ≤ verdict'.rank := by
  have hlocked := locked_pos hleverage hbuffer
  refine ⟨_, gateOn_eq hcosts hleverage hbuffer hhold hduty, ?_, ?_, ?_⟩
  · split_ifs with hdead hpass
    · simp [hdead]
    · simp [hdead]
    · simp [hdead]
  · split_ifs with hdead hpass
    · refine iff_of_false (by simp) ?_
      rintro ⟨habove, hsome, -⟩
      rcases hdead with hle | rfl
      · exact absurd habove (not_lt.mpr hle)
      · exact absurd hsome (lt_irrefl 0)
    · push Not at hdead
      exact iff_of_true rfl ⟨hdead.1, lt_of_le_of_ne hduty hdead.2.symm, hpass⟩
    · refine iff_of_false (by simp) ?_
      rintro ⟨-, -, hkept⟩
      exact hpass hkept
  · intro spreadApr' holdHours' duty' hspreads hholds hduties
    refine ⟨_, gateOn_eq hcosts hleverage hbuffer (hhold.trans_le hholds)
      (hduty.trans hduties), ?_⟩
    by_cases hdead : spreadApr ≤ p.floor holdHours ∨ duty = 0
    · rw [if_pos hdead]
      exact Nat.zero_le _
    · have hlive := hdead
      push Not at hlive
      obtain ⟨habove, hsome⟩ := hlive
      have hpos : 0 < duty := lt_of_le_of_ne hduty hsome.symm
      have hlive' : ¬(spreadApr' ≤ p.floor holdHours' ∨ duty' = 0) := by
        rintro (hle | rfl)
        · have hfloors := hcosts.floor_anti hhold hholds
          exact absurd ((hspreads.trans hle).trans hfloors) (not_le.mpr habove)
        · exact absurd hduties (not_le.mpr hpos)
      rw [if_neg hdead, if_neg hlive']
      by_cases hpass : p.notionalCost holdHours ≤ maxCost * spreadApr ∧
          minApr ≤ p.effective spreadApr holdHours duty
      · have hcost := notionalCost_nonneg hcosts hhold
        have hspread : 0 < spreadApr := by
          have hfloor := notionalCost_le_floor hcosts holdHours
          exact (hcost.trans hfloor).trans_lt habove
        have hshare : 0 ≤ maxCost :=
          nonneg_of_mul_nonneg_left (hcost.trans hpass.1) hspread
        have hcosts' : p.notionalCost holdHours' ≤ maxCost * spreadApr' :=
          ((notionalCost_anti hcosts hhold hholds).trans hpass.1).trans
            (mul_le_mul_of_nonneg_left hspreads hshare)
        have hkept' := hpass.2.trans
          (effective_mono hcosts hlocked hhold hduty habove.le hspreads hholds hduties)
        rw [if_pos hpass, if_pos ⟨hcosts', hkept'⟩]
      · rw [if_neg hpass]
        split_ifs
        · exact Nat.le_succ _
        · exact le_refl _

theorem economicGate_iff_by_default :
    ∃ verdict, gateOn .standard (30 / 100) 720 (9 / 10) (35 / 100) 0 = .ok verdict ∧
      (verdict = .corpse ↔
        30 / 100 ≤ CrossVenueParams.standard.floor 720 ∨ (9 / 10 : ℚ) = 0) := by
  have hcosts : CrossVenueParams.standard.NonnegCosts := by
    constructor <;> norm_num [CrossVenueParams.standard]
  obtain ⟨verdict, hok, hcorpse, -⟩ :=
    economicGate_iff (30 / 100) (35 / 100) 0 hcosts two_pos
      (by norm_num [CrossVenueParams.standard]) (show (0 : ℚ) < 720 by norm_num)
      (show (0 : ℚ) ≤ 9 / 10 by norm_num)
  exact ⟨verdict, hok, hcorpse⟩

end Capital

end TreasuryForge

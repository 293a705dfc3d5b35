/-
# `Capital.CrossVenue` — what a cross-venue spread nets on the capital it locks

The metrics of `cross_venue_economics.py` over exact fractions.  The one-time costs are spread over
the hold, the ongoing ones are charged on the notional or on the locked capital, and what is left
is divided by the capital.  `breakeven_agrees` compares the result with the two breakeven figures
that are reported beside it.
-/
import Mathlib.Algebra.Order.Field.Basic
import Mathlib.Algebra.Order.Field.Rat
import Mathlib.Data.String.Basic
import Mathlib.Tactic.FieldSimp
import Mathlib.Tactic.Linarith
import Mathlib.Tactic.NormNum
import Mathlib.Tactic.Positivity
import Mathlib.Tactic.Ring

namespace TreasuryForge

namespace Capital

/-- `HOURS_PER_YEAR` -/
def hoursPerYear : ℚ := 24 * 365

structure CrossVenueParams where
  feePerLeg : ℚ := 45 / 100000
  slippagePerLeg : ℚ := 2 / 10000
  legs : ℤ := 4
  hedgeRebalanceApr : ℚ := 1 / 100
  transferFriction : ℚ := 1 / 1000
  orphanLegPremiumApr : ℚ := 2 / 100
  leverage : ℚ := 2
  liqBufferFrac : ℚ := 5 / 10
  fundingSettlementDragApr : ℚ := 5 / 1000
  downtimeHaircutApr : ℚ := 5 / 1000
  opportunityCostApr : ℚ := 4 / 100
  exchangeRiskApr : ℚ := 1 / 100
  transferDelayDays : ℚ := 1

/-- `DEFAULT` -/
def CrossVenueParams.standard : CrossVenueParams := {}

/-- Where a figure is `none`, the hold is no time at all and the figure is infinite. -/
structure CrossVenueEconomics where
  grossSpreadApr : ℚ
  amortisedTradeCostApr : Option ℚ
  notionalDragApr : ℚ
  capitalDragApr : ℚ
  netFundingAprOnNotional : Option ℚ
  totalLockedRatio : ℚ
  netAprOnTotalCapital : Option ℚ
  breakevenHoldHours : Option ℚ

namespace CrossVenueParams

variable (p : CrossVenueParams)

/-- `_amortised`: the one-time cost, and what it comes to by the year. -/
def amortised (holdHours : ℚ) : ℚ × Option ℚ :=
  let roundTrip := p.legs * (p.feePerLeg + p.slippagePerLeg)
  let transitOpp := p.transferDelayDays / 365 * p.opportunityCostApr
  let oneTime := roundTrip + p.transferFriction + transitOpp
  let holdYears := holdHours / hoursPerYear
  (oneTime, if 0 < holdYears then some (oneTime / holdYears) else none)

/-- `_notional_drag` -/
def notionalDrag : ℚ :=
  p.hedgeRebalanceApr + p.orphanLegPremiumApr + p.fundingSettlementDragApr + p.downtimeHaircutApr

/-- `_locked_ratio`: collateral on both venues, and the liquidation buffer. -/
def lockedRatio : Except String ℚ :=
  if p.leverage = 0 then .error "ZeroDivisionError: float division by zero"
  else .ok (2 / p.leverage * (1 + p.liqBufferFrac))

/-- `_capital_drag` -/
def capitalDrag : Except String ℚ := do
  return (p.opportunityCostApr + p.exchangeRiskApr) * (← p.lockedRatio)

end CrossVenueParams

def breakevenSpreadApr (holdHours : ℚ) (p : CrossVenueParams := .standard) :
    Except String (Option ℚ) := do
  let (_, amortised) := p.amortised holdHours
  let capitalDrag ← p.capitalDrag
  let lockedRatio ← p.lockedRatio
  return amortised.map (· + p.notionalDrag + capitalDrag * lockedRatio)

def crossVenueEconomics (spreadApr holdHours : ℚ) (p : CrossVenueParams := .standard) :
    Except String CrossVenueEconomics := do
  let (oneTime, amortised) := p.amortised holdHours
  let notionalDrag := p.notionalDrag
  let netFunding := amortised.map (spreadApr - · - notionalDrag)
  let totalLockedRatio ← p.lockedRatio
  let capitalDrag ← p.capitalDrag
  if totalLockedRatio = 0 then .error "ZeroDivisionError: float division by zero"
  else
    return {
      grossSpreadApr := spreadApr
      amortisedTradeCostApr := amortised
      notionalDragApr := notionalDrag
      capitalDragApr := capitalDrag
      netFundingAprOnNotional := netFunding
      totalLockedRatio := totalLockedRatio
      netAprOnTotalCapital := netFunding.map (· / totalLockedRatio - capitalDrag)
      breakevenHoldHours :=
        if 0 < spreadApr then some (oneTime / (spreadApr / hoursPerYear)) else none }

/-! ## The figures of a real hold -/

section Figures

variable {p : CrossVenueParams}

/-- The locked capital by notional, where there is any leverage. -/
def CrossVenueParams.locked (p : CrossVenueParams) : ℚ := 2 / p.leverage * (1 + p.liqBufferFrac)

/-- The one-time cost. -/
def CrossVenueParams.oneTime (p : CrossVenueParams) : ℚ := (p.amortised 1).1

/-- The floor that the spread has to clear. -/
def CrossVenueParams.floor (p : CrossVenueParams) (holdHours : ℚ) : ℚ :=
  p.oneTime * hoursPerYear / holdHours + p.notionalDrag +
    (p.opportunityCostApr + p.exchangeRiskApr) * p.locked * p.locked

theorem hoursPerYear_pos : 0 < hoursPerYear := by norm_num [hoursPerYear]

theorem amortised_eq {holdHours : ℚ} (h : 0 < holdHours) :
    p.amortised holdHours = (p.oneTime, some (p.oneTime * hoursPerYear / holdHours)) := by
  have hyears : 0 < holdHours / hoursPerYear := div_pos h hoursPerYear_pos
  rw [CrossVenueParams.amortised, if_pos hyears, div_div_eq_mul_div]
  rfl

theorem lockedRatio_eq (h : 0 < p.leverage) : p.lockedRatio = .ok p.locked := if_neg h.ne'

theorem capitalDrag_eq (h : 0 < p.leverage) :
    p.capitalDrag = .ok ((p.opportunityCostApr + p.exchangeRiskApr) * p.locked) := by
  rw [CrossVenueParams.capitalDrag, lockedRatio_eq h]
  rfl

theorem locked_pos (hleverage : 0 < p.leverage) (hbuffer : -1 < p.liqBufferFrac) : 0 < p.locked :=
  mul_pos (div_pos two_pos hleverage) (by linarith)

theorem breakevenSpreadApr_eq (hleverage : 0 < p.leverage) {holdHours : ℚ} (h : 0 < holdHours) :
    breakevenSpreadApr holdHours p = .ok (some (p.floor holdHours)) := by
  rw [breakevenSpreadApr, amortised_eq h, capitalDrag_eq hleverage, lockedRatio_eq hleverage]
  rfl

/-- What is net of the floor, on the capital. -/
theorem crossVenueEconomics_eq (hleverage : 0 < p.leverage) (hbuffer : -1 < p.liqBufferFrac)
    (spreadApr : ℚ) {holdHours : ℚ} (h : 0 < holdHours) :
    ∃ e, crossVenueEconomics spreadApr holdHours p = .ok e ∧
      e.netAprOnTotalCapital = some ((spreadApr - p.floor holdHours) / p.locked) ∧
      (0 < spreadApr → e.breakevenHoldHours = some (p.oneTime * hoursPerYear / spreadApr)) := by
  have hlocked := locked_pos hleverage hbuffer
  rw [crossVenueEconomics, amortised_eq h, capitalDrag_eq hleverage, lockedRatio_eq hleverage]
  refine ⟨_, if_neg hlocked.ne', ?_, ?_⟩
  · refine congrArg some ?_
    rw [CrossVenueParams.floor]
    field_simp
    ring
  · intro hspread
    exact (if_pos hspread).trans (congrArg some (div_div_eq_mul_div _ _ _))

/-- Nothing that is charged is negative. -/
structure CrossVenueParams.NonnegCosts (p : CrossVenueParams) : Prop where
  feePerLeg : 0 ≤ p.feePerLeg
  slippagePerLeg : 0 ≤ p.slippagePerLeg
  legs : 0 ≤ p.legs
  hedgeRebalanceApr : 0 ≤ p.hedgeRebalanceApr
  transferFriction : 0 ≤ p.transferFriction
  orphanLegPremiumApr : 0 ≤ p.orphanLegPremiumApr
  fundingSettlementDragApr : 0 ≤ p.fundingSettlementDragApr
  downtimeHaircutApr : 0 ≤ p.downtimeHaircutApr
  opportunityCostApr : 0 ≤ p.opportunityCostApr
  exchangeRiskApr : 0 ≤ p.exchangeRiskApr
  transferDelayDays : 0 ≤ p.transferDelayDays

namespace CrossVenueParams.NonnegCosts

theorem oneTime (h : p.NonnegCosts) : 0 ≤ p.oneTime := by
  have hlegs : (0 : ℚ) ≤ p.legs := Int.cast_nonneg h.legs
  have htrip : 0 ≤ p.legs * (p.feePerLeg + p.slippagePerLeg) :=
    mul_nonneg hlegs (add_nonneg h.feePerLeg h.slippagePerLeg)
  have htransit : 0 ≤ p.transferDelayDays / 365 * p.opportunityCostApr :=
    mul_nonneg (div_nonneg h.transferDelayDays (by norm_num)) h.opportunityCostApr
  exact add_nonneg (add_nonneg htrip h.transferFriction) htransit

theorem notionalDrag (h : p.NonnegCosts) : 0 ≤ p.notionalDrag :=
  add_nonneg (add_nonneg (add_nonneg h.hedgeRebalanceApr h.orphanLegPremiumApr)
    h.fundingSettlementDragApr) h.downtimeHaircutApr

/-- The longer the hold, the lower the floor. -/
theorem floor_anti (h : p.NonnegCosts) {hold hold' : ℚ} (hhold : 0 < hold) (hle : hold ≤ hold') :
    p.floor hold' ≤ p.floor hold := by
  have hcost : 0 ≤ p.oneTime * hoursPerYear := mul_nonneg h.oneTime hoursPerYear_pos.le
  have hspread : p.oneTime * hoursPerYear / hold' ≤ p.oneTime * hoursPerYear / hold :=
    div_le_div_of_nonneg_left hcost hhold hle
  rw [floor, floor]
  linarith

/-- The one-time cost alone has to be covered. -/
theorem le_floor (h : p.NonnegCosts) (hold : ℚ) :
    p.oneTime * hoursPerYear / hold ≤ p.floor hold := by
  have hcapital : 0 ≤ (p.opportunityCostApr + p.exchangeRiskApr) * p.locked * p.locked := by
    rw [mul_assoc]
    exact mul_nonneg (add_nonneg h.opportunityCostApr h.exchangeRiskApr) (mul_self_nonneg _)
  have hnotional := h.notionalDrag
  rw [floor]
  linarith

end CrossVenueParams.NonnegCosts

end Figures

/-- The net return on the capital has the sign that the spread has above its floor, a longer hold
never makes it less, and a hold that is shorter than the reported one does not pay. -/
theorem breakeven_agrees {p : CrossVenueParams} (hcosts : p.NonnegCosts)
    (hleverage : 0 < p.leverage) (hbuffer : -1 < p.liqBufferFrac) (spreadApr : ℚ) {holdHours : ℚ}
    (hhold : 0 < holdHours) :
    ∃ e net floor, crossVenueEconomics spreadApr holdHours p = .ok e ∧
      e.netAprOnTotalCapital = some net ∧
      breakevenSpreadApr holdHours p = .ok (some floor) ∧
      (0 < net ↔ floor < spreadApr) ∧ (net = 0 ↔ spreadApr = floor) ∧
      (net < 0 ↔ spreadApr < floor) ∧
      (∀ holdHours', holdHours ≤ holdHours' →
        ∃ e' net', crossVenueEconomics spreadApr holdHours' p = .ok e' ∧
          e'.netAprOnTotalCapital = some net' ∧ net ≤ net') ∧
      (0 < spreadApr → ∃ hours, e.breakevenHoldHours = some hours ∧
        (0 ≤ net → hours ≤ holdHours)) := by
  have hlocked := locked_pos hleverage hbuffer
  obtain ⟨e, he, hnet, hhours⟩ := crossVenueEconomics_eq hleverage hbuffer spreadApr hhold
  refine ⟨e, _, _, he, hnet, breakevenSpreadApr_eq hleverage hhold, ?_, ?_, ?_, ?_, ?_⟩
  · rw [div_pos_iff_of_pos_right hlocked, sub_pos]
  · rw [div_eq_zero_iff, or_iff_left hlocked.ne', sub_eq_zero]
  · rw [div_lt_iff₀ hlocked, zero_mul, sub_neg]
  · intro holdHours' hle
    obtain ⟨e', he', hnet', -⟩ :=
      crossVenueEconomics_eq hleverage hbuffer spreadApr (hhold.trans_le hle)
    refine ⟨e', _, he', hnet', ?_⟩
    exact div_le_div_of_nonneg_right (sub_le_sub_left (hcosts.floor_anti hhold hle) _) hlocked.le
  · intro hspread
    refine ⟨_, hhours hspread, ?_⟩
    intro hnonneg
    rw [le_div_iff₀ hlocked, zero_mul] at hnonneg
    have habove : p.floor holdHours ≤ spreadApr := sub_nonneg.mp hnonneg
    have hcover := (hcosts.le_floor holdHours).trans habove
    rw [div_le_iff₀ hhold] at hcover
    rw [div_le_iff₀ hspread, mul_comm holdHours]
    exact hcover

theorem breakeven_agrees_by_default :
    ∃ e net floor, crossVenueEconomics (30 / 100) 720 .standard = .ok e ∧
      e.netAprOnTotalCapital = some net ∧ breakevenSpreadApr 720 .standard = .ok (some floor) ∧
      (0 < net ↔ floor < 30 / 100) := by
  have hcosts : CrossVenueParams.standard.NonnegCosts := by
    constructor <;> norm_num [CrossVenueParams.standard]
  obtain ⟨e, net, floor, he, hnet, hfloor, hpos, -⟩ :=
    breakeven_agrees hcosts two_pos (by norm_num [CrossVenueParams.standard]) (30 / 100)
      (show (0 : ℚ) < 720 by norm_num)
  exact ⟨e, net, floor, he, hnet, hfloor, hpos⟩

end Capital

end TreasuryForge

/-
# `Backtest.Metrics` — what a series of period returns is scored by

The metrics of `backtest/metrics.py` over exact fractions, and the equity curve that
`risk/report.py`, `backtest/funding_backtest.py` and `consultants.py` compound the returns into.
`maxDrawdown_equityCurve` reads the drawdown of such a curve off its growth factors.
-/
import TreasuryForge.Signals.Regime
import TreasuryForge.Base.Drawdown
import Mathlib.Tactic.FieldSimp

namespace TreasuryForge

namespace Backtest

open Drawdown

structure Moments where
  mean : ℚ
  std : ℚ
  skew : ℚ
  kurt : ℚ
  deriving Repr

/-- The mean over the series of a power of the deviation. -/
def centralMoment (returns : List ℚ) (mean : ℚ) (k : ℕ) : ℚ :=
  (returns.map fun r => (r - mean) ^ k).sum / returns.length

section Ratios

variable (m : Maths ℚ)

/-- `_moments` -/
def moments (returns : List ℚ) : Except String Moments :=
  if returns = [] then .error "ZeroDivisionError: division by zero"
  else
    let mean := returns.sum / returns.length
    let var := centralMoment returns mean 2
    let std := if 0 < var then m.sqrt var else 0
    if std = 0 then .ok ⟨mean, 0, 0, 3⟩
    else .ok ⟨mean, std, centralMoment returns mean 3 / std ^ 3,
      centralMoment returns mean 4 / std ^ 4⟩

/-- `s * math.sqrt(periods_per_year) if periods_per_year else s` -/
def annualized (periodsPerYear : Option ℕ) (s : ℚ) : ℚ :=
  match periodsPerYear with
  | none => s
  | some 0 => s
  | some n => s * m.sqrt n

def sharpeRatio (returns : List ℚ) (periodsPerYear : Option ℕ := none) : Except String ℚ :=
  if returns.length < 2 then .ok 0
  else
    (moments m returns).map fun mo =>
      if mo.std = 0 then 0 else annualized m periodsPerYear (mo.mean / mo.std)

/-- The Sharpe ratio with the downside deviation for its volatility. -/
def sortinoRatio (returns : List ℚ) (periodsPerYear : Option ℕ := none) (target : ℚ := 0) : ℚ :=
  if returns.length < 2 then 0
  else
    let mean := returns.sum / returns.length
    let downside := returns.map fun r => min (r - target) 0
    let dd := m.sqrt ((downside.map fun d => d * d).sum / returns.length)
    if dd = 0 then 0 else annualized m periodsPerYear ((mean - target) / dd)

/-- Gross gains by gross losses; `none` is infinite. -/
def profitFactor (returns : List ℚ) : Option ℚ :=
  let gains := (returns.filter (0 < ·)).sum
  let losses := -(returns.filter (· < 0)).sum
  if 0 < losses then some (gains / losses) else none

end Ratios

/-! ## Drawdown -/

/-- One value of the curve; the peak before the first one is `-inf`, which is `none`. -/
def drawdownStep (s : Option ℚ × ℚ) (v : ℚ) : Option ℚ × ℚ :=
  let peak :=
    match s.1 with
    | none => v
    | some peak => max peak v
  (some peak, if 0 < peak then max s.2 ((peak - v) / peak) else s.2)

def maxDrawdown (equityCurve : List ℚ) : ℚ := (equityCurve.foldl drawdownStep (none, 0)).2

/-- `acc *= (1 + r)`, and what it is after each return. -/
def equityCurve (acc : ℚ) : List ℚ → List ℚ
  | [] => []
  | r :: rs => acc * (1 + r) :: equityCurve (acc * (1 + r)) rs

/-- What each return multiplies the equity by. -/
def factors (returns : List ℚ) : List ℚ := returns.map (1 + ·)

theorem factors_pos {returns : List ℚ} (h : ∀ r ∈ returns, 0 < 1 + r) :
    ∀ f ∈ factors returns, 0 < f := by
  intro f hf
  obtain ⟨r, hr, rfl⟩ := List.mem_map.mp hf
  exact h r hr

theorem foldl_drawdownStep (returns : List ℚ) {acc peak : ℚ} (hpeak : 0 < peak) (mdd : ℚ) :
    ((equityCurve acc returns).foldl drawdownStep (some peak, mdd)).2 =
      track acc peak mdd (factors returns) := by
  induction returns generalizing acc peak mdd with
  | nil => rfl
  | cons r rs ih =>
      have hmax : 0 < max peak (acc * (1 + r)) := lt_max_of_lt_left hpeak
      have hstep : drawdownStep (some peak, mdd) (acc * (1 + r)) =
          (some (max peak (acc * (1 + r))),
            max mdd (1 - acc * (1 + r) / max peak (acc * (1 + r)))) := by
        rw [drawdownStep, if_pos hmax, sub_div, div_self hmax.ne']
      rw [equityCurve, List.foldl_cons, hstep, ih hmax]
      rfl

/-- The first value of the curve is its first peak: the drawdown is of the path after the first
period. -/
theorem maxDrawdown_equityCurve {returns : List ℚ} (h : ∀ r ∈ returns, 0 < 1 + r) :
    maxDrawdown (equityCurve 1 returns) = fall 1 (factors returns.tail) := by
  cases returns with
  | nil => rfl
  | cons r rs =>
      have hr : 0 < 1 + r := h r List.mem_cons_self
      have hrest : ∀ f ∈ factors rs, 0 < f :=
        factors_pos fun q hq => h q (List.mem_cons_of_mem r hq)
      have hstep : drawdownStep (none, 0) (1 * (1 + r)) = (some (1 + r), 0) := by
        rw [one_mul, drawdownStep, if_pos hr, sub_self, zero_div, max_self]
      rw [maxDrawdown, equityCurve, List.foldl_cons, hstep, foldl_drawdownStep rs hr, one_mul,
        track_eq hrest hr hr le_rfl, div_self hr.ne', max_eq_right (fall_nonneg 1 _),
        List.tail_cons]

end Backtest

end TreasuryForge

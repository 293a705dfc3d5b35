/-
# `Signals.Regime` — is the spread tradeable right now

`adf_test` and `half_life` of `signals/cointegration.py`, and `signals/regime.py`, over any
ordered field.
-/
import TreasuryForge.Signals.Linalg

namespace TreasuryForge

namespace Signals

variable {K : Type} [Field K] [LinearOrder K] (m : Maths K)

/-! ## Stationarity -/

/-- `y[i] - y[i - 1]` for each `i` from one on. -/
def steps (y : List K) : List K := List.zipWith (fun a b => b - a) y y.tail

/-- `ADF_CRIT[level]` -/
def adfCrit (level : K) : Except String K :=
  if level = 1 / 100 then .ok (-343 / 100)
  else if level = 5 / 100 then .ok (-286 / 100)
  else if level = 10 / 100 then .ok (-257 / 100)
  else .error "KeyError"

def adfTest (y : List K) (lags : ℕ := 1) : Except String K := do
  let dy := steps y
  let ts := (List.range dy.length).filter fun t => lags ≤ t
  let rows := ts.map fun t =>
    [1, y.getD t 0] ++ (List.range lags).map fun l => dy.getD (t - (l + 1)) 0
  let res ← ols m rows (ts.map fun t => dy.getD t 0)
  return res.tstat 1

/-- The half-life of an AR(1) fit; `none` is infinite. -/
def halfLife (spread : List K) : Except String (Option K) := do
  let X := spread.dropLast.map fun s => [1, s]
  let res ← ols m X spread.tail
  let phi := res.coef.getD 1 0
  if 0 < phi ∧ phi < 1 then some <$> divide (-m.log 2) (m.log phi) else return none

/-! ## The regime -/

def varianceRatio (x : List K) (k : ℤ) : Except String K :=
  if k < 2 then .error "ValueError: k must be >= 2"
  else if (x.length : ℤ) ≤ k + 1 then .error "ValueError: series too short for this k"
  else
    let k := k.toNat
    let d1 := steps x
    let mu := d1.sum / d1.length
    let var1 : K := (d1.map fun d => (d - mu) ^ 2).sum / d1.length
    if var1 ≤ 1 / 10 ^ 12 then .ok 1
    else
      let dk := List.zipWith (fun a b => b - a) x (x.drop k)
      let vark : K := (dk.map fun d => (d - k * mu) ^ 2).sum / dk.length
      .ok (vark / (k * var1))

inductive Reason where
  | notStationary
  | tooSlow
  | tooFast
  | notMeanReverting
  | ok
  deriving DecidableEq, Repr

structure RegimeAssessment (K : Type) where
  reason : Reason
  stationary : Bool
  adfStat : K
  halfLife : Option K
  varianceRatio : K
  meanReverting : Bool

def RegimeAssessment.tradeable (r : RegimeAssessment K) : Bool := r.reason = .ok

/-- What the gate asks of a regime. -/
structure RegimeParams (K : Type) [Field K] where
  level : K := 5 / 100
  minHalfLife : K := 1
  maxHalfLife : K := 500
  vrK : ℤ := 8
  vrMax : K := 9 / 10

def assessSpreadRegime (p : RegimeParams K) (spread : List K) :
    Except String (RegimeAssessment K) := do
  let adfStat ← adfTest m spread
  let stationary : Bool := adfStat < (← adfCrit p.level)
  let hl ← halfLife m spread
  let vr ← varianceRatio spread p.vrK
  let meanReverting : Bool := vr < p.vrMax
  let reason : Reason :=
    if !stationary then .notStationary
    else
      match hl with
      | none => .tooSlow
      | some hl =>
          if p.maxHalfLife < hl then .tooSlow
          else if hl < p.minHalfLife then .tooFast
          else if !meanReverting then .notMeanReverting
          else .ok
  return ⟨reason, stationary, adfStat, hl, vr, meanReverting⟩

end Signals

end TreasuryForge

/-
# `Signals.Tsmom` — time-series momentum, sized to a volatility target

`signals/tsmom.py` over any ordered field.  The look-backs are integers as in the source: below
zero they count from the other end of the history.
-/
import TreasuryForge.Signals.Pairs

namespace TreasuryForge

namespace Signals

open Loop

variable {K : Type} [Field K] [LinearOrder K] (m : Maths K)

structure TsmomParams (K : Type) [Field K] where
  lookback : ℤ := 24
  volWindow : ℤ := 24
  targetVol : K := 1 / 100
  maxLeverage : K := 3
  cost : K := 6 / 10 ^ 4
  longShort : Bool := true

/-- `math.sqrt` -/
def mathSqrt (x : K) : Except String K :=
  if x < 0 then .error "ValueError: math domain error" else .ok (m.sqrt x)

/-- The deviation of the last `window` returns. -/
def realizedVol (returns : List K) (window : ℤ) : Except String K :=
  let w := slice returns (-window) returns.length
  if w.length < 2 then .ok 0
  else
    let mean := w.sum / w.length
    mathSqrt m ((w.map fun r => (r - mean) ^ 2).sum / w.length)

def momentumSign (closes : List K) (lookback : ℤ) : Except String K :=
  if closes.length ≤ lookback then .ok 0
  else do
    let past ← index closes (-1 - lookback)
    if past ≤ 0 then return 0
    else
      let r := (← index closes (-1)) / past - 1
      return if 0 < r then 1 else if r < 0 then -1 else 0

def targetPosition (closes returns : List K) (p : TsmomParams K) : Except String K := do
  let sign ← momentumSign closes p.lookback
  if sign = 0 ∨ (p.longShort = false ∧ sign < 0) then return 0
  else
    let vol ← realizedVol m returns p.volWindow
    if vol ≤ 0 then return 0
    else return sign * min (p.targetVol / vol) p.maxLeverage

theorem momentumSign_mem {closes : List K} {lookback : ℤ} {sign : K}
    (h : momentumSign closes lookback = .ok sign) : sign = 0 ∨ sign = 1 ∨ sign = -1 := by
  unfold momentumSign at h
  split at h
  · exact Or.inl (Except.ok.inj h).symm
  · obtain ⟨past, -, h⟩ := bind_eq_ok.mp h
    split at h
    · exact Or.inl (Except.ok.inj h).symm
    · obtain ⟨last, -, h⟩ := bind_eq_ok.mp h
      obtain rfl := Except.ok.inj h
      split_ifs <;> simp

/-- Before the first close a look-back of minus two or less has nothing to read. -/
theorem momentumSign_nil {lookback : ℤ} (h : lookback ≤ -2) :
    ∀ sign : K, momentumSign [] lookback ≠ .ok sign := by
  intro sign hsign
  rw [momentumSign, if_neg (by simp; omega)] at hsign
  obtain ⟨past, hpast, -⟩ := bind_eq_ok.mp hsign
  rw [index, if_neg (by simp; omega)] at hpast
  cases hpast

/-- However low the volatility, the position stays within the cap on the leverage. -/
theorem abs_targetPosition_le [IsStrictOrderedRing K] {closes returns : List K}
    {p : TsmomParams K} {pos : K} (h : targetPosition m closes returns p = .ok pos)
    (htarget : 0 ≤ p.targetVol) (hcap : 0 ≤ p.maxLeverage) : |pos| ≤ p.maxLeverage := by
  obtain ⟨sign, hsign, h⟩ := bind_eq_ok.mp h
  have hflat : |(0 : K)| ≤ p.maxLeverage := by rwa [abs_zero]
  split at h
  · rwa [← Except.ok.inj h]
  · obtain ⟨vol, -, h⟩ := bind_eq_ok.mp h
    split at h
    · rwa [← Except.ok.inj h]
    · next hvol =>
        obtain rfl := Except.ok.inj h
        have hsize : 0 ≤ min (p.targetVol / vol) p.maxLeverage :=
          le_min (div_nonneg htarget (not_le.mp hvol).le) hcap
        have hone : |sign| ≤ 1 := by
          rcases momentumSign_mem hsign with rfl | rfl | rfl <;> simp
        rw [abs_mul, abs_of_nonneg hsize]
        calc |sign| * min (p.targetVol / vol) p.maxLeverage
            ≤ 1 * min (p.targetVol / vol) p.maxLeverage :=
              mul_le_mul_of_nonneg_right hone hsize
          _ ≤ p.maxLeverage := by
              rw [one_mul]
              exact min_le_right _ _

end Signals

end TreasuryForge

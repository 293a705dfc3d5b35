/-
# `Base.LeastSquares` — the normal equations

What solves the normal equations leaves residuals that are orthogonal to every column
(`residual_orthogonal`), and no other coefficients leave a smaller sum of squares
(`rss_le_of_orthogonal`).
-/
import Mathlib.Algebra.Order.Field.Basic
import Mathlib.LinearAlgebra.Matrix.NonsingularInverse
import Mathlib.Tactic.Linarith

namespace LeastSquares

open Matrix

variable {ι κ K : Type} [Fintype ι] [Fintype κ] [Field K]

/-- What the coefficients leave of the target. -/
def residual (X : Matrix ι κ K) (y : ι → K) (b : κ → K) : ι → K := y - X *ᵥ b

def rss (X : Matrix ι κ K) (y : ι → K) (b : κ → K) : K := residual X y b ⬝ᵥ residual X y b

theorem residual_orthogonal [DecidableEq κ] {X : Matrix ι κ K} {G : Matrix κ κ K}
    (h : (Xᵀ * X) * G = 1) (y : ι → K) : Xᵀ *ᵥ residual X y (G *ᵥ (Xᵀ *ᵥ y)) = 0 := by
  rw [residual, mulVec_sub, mulVec_mulVec, mulVec_mulVec, h, one_mulVec, sub_self]

theorem rss_le_of_orthogonal [LinearOrder K] [IsStrictOrderedRing K] {X : Matrix ι κ K} {y : ι → K}
    {b : κ → K} (h : Xᵀ *ᵥ residual X y b = 0) (b' : κ → K) : rss X y b ≤ rss X y b' := by
  have hsplit : residual X y b' = residual X y b + X *ᵥ (b - b') := by
    rw [residual, residual, mulVec_sub]
    abel
  have hcross : residual X y b ⬝ᵥ X *ᵥ (b - b') = 0 := by
    rw [dotProduct_mulVec, ← mulVec_transpose, h, zero_dotProduct]
  have hsquare : 0 ≤ X *ᵥ (b - b') ⬝ᵥ X *ᵥ (b - b') :=
    Finset.sum_nonneg fun i _ => mul_self_nonneg _
  calc rss X y b
      ≤ rss X y b + X *ᵥ (b - b') ⬝ᵥ X *ᵥ (b - b') := le_add_of_nonneg_right hsquare
    _ = rss X y b' := by
        rw [rss, rss, hsplit, add_dotProduct, dotProduct_add, dotProduct_add, hcross,
          dotProduct_comm (X *ᵥ (b - b')) (residual X y b), hcross, add_zero, zero_add]

end LeastSquares

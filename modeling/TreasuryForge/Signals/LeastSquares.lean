/-
# `Signals.LeastSquares` — the coefficients that leave the least squares

The normal equations of `ols`, solved by an inverse that is one: what they leave is orthogonal to
every regressor, and no other coefficients leave less (`regression_correct`).
-/
import TreasuryForge.Base.LeastSquares
import TreasuryForge.Signals.Inverse
import Mathlib.Tactic.NormNum

namespace TreasuryForge

namespace Signals

variable {K : Type} [Field K] {n k : ℕ}

/-- What the coefficients leave of the target. -/
def residuals (X : Matrix K) (y b : List K) : List K :=
  List.zipWith (fun row yr => yr - dot row b) X y

/-- The residual sum of squares. -/
def rss (X : Matrix K) (y b : List K) : K := ((residuals X y b).map fun e => e * e).sum

section Vectors

variable {X : Matrix K} {y b : List K}

theorem length_residuals (hX : IsMatrix n k X) (hy : n ≤ y.length) :
    (residuals X y b).length = n := by
  rw [residuals, List.length_zipWith, hX.rows, min_eq_left hy]

theorem toVec_residuals (hX : IsMatrix n k X) (hy : n ≤ y.length) (hb : k ≤ b.length) :
    toVec n (residuals X y b) = LeastSquares.residual (toMat n k X) (toVec n y) (toVec k b) := by
  funext i
  have hi : (i : ℕ) < X.length := i.isLt.trans_eq hX.rows.symm
  have hiy : (i : ℕ) < y.length := i.isLt.trans_le hy
  have hres : (i : ℕ) < (residuals X y b).length :=
    i.isLt.trans_eq (length_residuals hX hy).symm
  have hrow := dot_eq (hX.cols _ (List.getElem_mem hi)) hb
  calc toVec n (residuals X y b) i
      = y[(i : ℕ)] - dot X[(i : ℕ)] b := by
        rw [toVec, List.getD_eq_getElem _ _ hres]
        exact List.getElem_zipWith
    _ = LeastSquares.residual (toMat n k X) (toVec n y) (toVec k b) i := by
        rw [hrow]
        simp [LeastSquares.residual, toVec, toMat, Matrix.mulVec, dotProduct, entry,
          List.getD_eq_getElem?_getD, hi, hiy]

theorem rss_eq (hX : IsMatrix n k X) (hy : n ≤ y.length) (hb : k ≤ b.length) :
    rss X y b = LeastSquares.rss (toMat n k X) (toVec n y) (toVec k b) := by
  have hlen := length_residuals (b := b) hX hy
  have hsquares : rss X y b = dot (residuals X y b) (residuals X y b) := by
    rw [rss, dot, List.zipWith_self]
  rw [hsquares, dot_eq hlen hlen.ge, toVec_residuals hX hy hb, LeastSquares.rss]

end Vectors

/-- The coefficients solve the normal equations. -/
theorem coef_eq {X : Matrix K} {y : List K} {inv : Matrix K} (hX : IsMatrix n k X) (hn : 0 < n)
    (hk : 0 < k) (hy : n ≤ y.length) (hinv : IsMatrix k k inv) :
    toVec k ((matmul inv ((transpose X).map fun row => [dot row y])).map (·.getD 0 0)) =
      Matrix.mulVec (toMat k k inv)
        (Matrix.mulVec (toMat n k X).transpose (toVec n y)) := by
  have hXt := isMatrix_transpose hX hn
  have hXty : IsMatrix k 1 ((transpose X).map fun row => [dot row y]) := by
    refine ⟨by rw [List.length_map, hXt.rows], fun row hrow => ?_⟩
    obtain ⟨row', -, rfl⟩ := List.mem_map.mp hrow
    rfl
  have htarget : ∀ j : Fin k, entry ((transpose X).map fun row => [dot row y]) j 0 =
      Matrix.mulVec (toMat n k X).transpose (toVec n y) j := by
    intro j
    have hj : (j : ℕ) < (transpose X).length := j.isLt.trans_eq hXt.rows.symm
    calc entry ((transpose X).map fun row => [dot row y]) j 0
        = dot ((transpose X).getD j []) y := by
          simp [entry, List.getD_eq_getElem?_getD, List.getElem?_eq_getElem hj]
      _ = dotProduct (toVec n ((transpose X).getD j [])) (toVec n y) :=
          dot_eq (hXt.length_row j.isLt) hy
      _ = Matrix.mulVec (toMat n k X).transpose (toVec n y) j := by
          rw [← toMat_transpose hX hn]
          rfl
  funext i
  calc toVec k ((matmul inv ((transpose X).map fun row => [dot row y])).map (·.getD 0 0)) i
      = entry (matmul inv ((transpose X).map fun row => [dot row y])) i 0 :=
        List.getD_map _ [] (fun row : List K => row.getD 0 0)
    _ = (toMat k k inv * toMat k 1 ((transpose X).map fun row => [dot row y])) i 0 := by
        rw [← toMat_matmul hinv hXty hk]
        rfl
    _ = Matrix.mulVec (toMat k k inv) (Matrix.mulVec (toMat n k X).transpose (toVec n y)) i := by
        rw [← funext htarget]
        rfl

variable [LinearOrder K] {m : Maths K}

/-- What `ols` has computed when it returns. -/
theorem ols_ok {X : Matrix K} {y : List K} {r : OLSResult K} (hX : IsMatrix n k X)
    (h : ols m X y = .ok r) : k < n ∧ 0 < k ∧ n ≤ y.length ∧
      ∃ inv, inverse (matmul (transpose X) X) = .ok inv ∧
        r.coef = (matmul inv ((transpose X).map fun row => [dot row y])).map (·.getD 0 0) ∧
        r.resid = residuals X y r.coef := by
  unfold ols at h
  cases X with
  | nil => cases h
  | cons row rest =>
      obtain ⟨width, hwidth, h⟩ := Loop.bind_eq_ok.mp h
      obtain rfl := Except.ok.inj hwidth
      rw [hX.cols row List.mem_cons_self, hX.rows] at h
      dsimp only at h
      split at h
      · cases h
      · next hobs =>
          obtain ⟨inv, hinv, h⟩ := Loop.bind_eq_ok.mp h
          split at h
          · cases h
          · next hindex =>
              obtain rfl := Except.ok.inj h
              have hn : k < n := not_le.mp hobs
              have hk : k ≠ 0 := fun hzero => hindex (Or.inl hzero)
              have hy : ¬ y.length < n := fun hshort => hindex (Or.inr (Or.inr hshort))
              exact ⟨hn, Nat.pos_of_ne_zero hk, not_lt.mp hy, inv, hinv, rfl, rfl⟩

variable [IsStrictOrderedRing K]

/-- Whatever `_inverse` returns is inverse to its matrix, and whatever `ols` returns leaves
residuals that are orthogonal to every regressor, and the least squares. -/
theorem regression_correct (m : Maths K) :
    (∀ (n : ℕ) (A R : Matrix K), IsMatrix n n A → inverse A = .ok R →
      IsMatrix n n R ∧ matmul R A = identity n ∧ matmul A R = identity n) ∧
    ∀ (n k : ℕ) (X : Matrix K) (y : List K) (r : OLSResult K), IsMatrix n k X →
      ols m X y = .ok r →
      r.coef.length = k ∧ r.resid = residuals X y r.coef ∧
      (∀ j < k, dot (column X j) r.resid = 0) ∧
      ∀ b : List K, b.length = k → rss X y r.coef ≤ rss X y b := by
  constructor
  · intro n A R hA h
    obtain ⟨hR, hleft, hright⟩ := inverse_toMat hA h
    rcases n.eq_zero_or_pos with rfl | hn
    · obtain rfl := List.length_eq_zero_iff.mp hA.rows
      obtain rfl := List.length_eq_zero_iff.mp hR.rows
      exact ⟨hR, rfl, rfl⟩
    · have hunit : IsMatrix n n (identity n : Matrix K) := isMatrix_of_range
      refine ⟨hR, (isMatrix_matmul hR hA hn).ext_toMat hunit ?_,
        (isMatrix_matmul hA hR hn).ext_toMat hunit ?_⟩
      · rw [toMat_matmul hR hA hn, toMat_identity, hleft]
      · rw [toMat_matmul hA hR hn, toMat_identity, hright]
  · intro n k X y r hX h
    obtain ⟨hobs, hk, hy, inv, hinv, hcoef, hresid⟩ := ols_ok hX h
    have hn : 0 < n := hk.trans hobs
    have hXt := isMatrix_transpose hX hn
    obtain ⟨hshape, -, hright⟩ := inverse_toMat (isMatrix_matmul hXt hX hn) hinv
    rw [toMat_matmul hXt hX hn, toMat_transpose hX hn] at hright
    have hlen : r.coef.length = k := by
      rw [hcoef, List.length_map, matmul, List.length_map, hshape.rows]
    have hsolves : toVec k r.coef = Matrix.mulVec (toMat k k inv)
        (Matrix.mulVec (toMat n k X).transpose (toVec n y)) := by
      rw [hcoef, coef_eq hX hn hk hy hshape]
    have hnormal := LeastSquares.residual_orthogonal hright (toVec n y)
    rw [← hsolves] at hnormal
    refine ⟨hlen, hresid, fun j hj => ?_, fun b hb => ?_⟩
    · have hcolumn : (column X j).length = n := by rw [length_column, hX.rows]
      rw [hresid, dot_eq hcolumn (length_residuals hX hy).ge, hX.toVec_column,
        toVec_residuals hX hy hlen.ge]
      exact congrFun hnormal ⟨j, hj⟩
    · rw [rss_eq hX hy hlen.ge, rss_eq hX hy hb.ge]
      exact LeastSquares.rss_le_of_orthogonal hnormal (toVec k b)

/-- Two points on each of two levels, and a constant. -/
def levels : Matrix ℚ := [[1, 0], [1, 0], [1, 1], [1, 1]]

theorem regression_correct_of_levels :
    (∃ R : Matrix ℚ, inverse [[2, 1], [1, 1]] = .ok R ∧
        matmul R [[2, 1], [1, 1]] = identity 2) ∧
      ∃ r, ols .decimal levels [1, 3, 4, 8] = .ok r ∧
        (∀ j < 2, dot (column levels j) r.resid = 0) ∧
        ∀ b : List ℚ, b.length = 2 →
          rss levels [1, 3, 4, 8] r.coef ≤ rss levels [1, 3, 4, 8] b := by
  obtain ⟨hinverse, hols⟩ := regression_correct Maths.decimal
  constructor
  · obtain ⟨R, hR⟩ := Loop.exists_of_toBool
      (show (inverse ([[2, 1], [1, 1]] : Matrix ℚ)).toBool = true by decide +kernel)
    exact ⟨R, hR, (hinverse 2 _ R ⟨rfl, by decide⟩ hR).2.1⟩
  · obtain ⟨r, hr⟩ := Loop.exists_of_toBool
      (show (ols .decimal levels [1, 3, 4, 8]).toBool = true by decide +kernel)
    obtain ⟨-, -, horthogonal, hleast⟩ := hols 4 2 levels _ r ⟨rfl, by decide⟩ hr
    exact ⟨r, hr, horthogonal, hleast⟩

end Signals

end TreasuryForge

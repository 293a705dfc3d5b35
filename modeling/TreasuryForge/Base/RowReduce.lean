/-
# `Base.RowReduce` — Gauss–Jordan elimination beside a unit matrix

Rows are vectors over any columns, and each row `i` has a column `e i` that it is to be the unit
vector of.  `pivot` brings up a row, scales it and takes it off all the others.  Such a step stays
in every space of rows (`pivot_mem`), and reduces one more column (`Reduced.pivot`); rows that
started as those of a matrix beside the unit matrix end as the unit matrix beside its inverse
(`inverse_of_reduced`).
-/
import Mathlib.Algebra.Module.Submodule.LinearMap
import Mathlib.Algebra.Order.Field.Basic
import Mathlib.LinearAlgebra.Matrix.NonsingularInverse
import Mathlib.LinearAlgebra.Matrix.ToLin

namespace RowReduce

variable {ι κ K : Type} [DecidableEq ι] [Field K]

/-- Row `piv` takes the place of row `c`, and is taken off all others in the column of `c`. -/
def pivot (e : ι → κ) (M : ι → κ → K) (c piv : ι) : ι → κ → K :=
  let S := M ∘ Equiv.swap c piv
  let p := (S c (e c))⁻¹ • S c
  fun i => if i = c then p else S i - S i (e c) • p

/-- The columns of the rows in `done` are those of a unit matrix. -/
def Reduced (e : ι → κ) (done : Set ι) (M : ι → κ → K) : Prop :=
  ∀ j ∈ done, ∀ i, M i (e j) = if i = j then 1 else 0

theorem pivot_mem {e : ι → κ} {M : ι → κ → K} {W : Submodule K (κ → K)} (h : ∀ i, M i ∈ W)
    (c piv i : ι) : pivot e M c piv i ∈ W := by
  have hp : ((M ∘ Equiv.swap c piv) c (e c))⁻¹ • (M ∘ Equiv.swap c piv) c ∈ W :=
    W.smul_mem _ (h _)
  unfold pivot
  split
  · exact hp
  · exact W.sub_mem (h _) (W.smul_mem _ hp)

theorem Reduced.pivot {e : ι → κ} {done : Set ι} {M : ι → κ → K} (h : Reduced e done M) {c piv : ι}
    (hc : c ∉ done) (hpiv : piv ∉ done) (hne : M piv (e c) ≠ 0) :
    Reduced e (insert c done) (pivot e M c piv) := by
  rintro j (rfl | hj) i
  · by_cases hi : i = j
    · simp [RowReduce.pivot, hi, inv_mul_cancel₀ hne]
    · simp [RowReduce.pivot, hi, inv_mul_cancel₀ hne]
  · have hjc : j ≠ c := fun heq => hc (heq ▸ hj)
    have hjpiv : j ≠ piv := fun heq => hpiv (heq ▸ hj)
    -- the swap moves neither the row of a reduced column nor another one into its place
    have hswap : ∀ i, (M ∘ Equiv.swap c piv) i (e j) = if i = j then 1 else 0 := by
      intro i
      rw [Function.comp_apply, h j hj]
      refine if_congr ?_ rfl rfl
      rw [← Equiv.swap_apply_of_ne_of_ne hjc hjpiv, Equiv.apply_eq_iff_eq,
        Equiv.swap_apply_of_ne_of_ne hjc hjpiv]
    by_cases hi : i = c
    · subst hi
      simp only [RowReduce.pivot, if_true, Pi.smul_apply, hswap, if_neg hjc.symm, smul_zero]
    · simp only [RowReduce.pivot, if_neg hi, Pi.sub_apply, Pi.smul_apply, hswap, if_neg hjc.symm,
        smul_zero, sub_zero]

/-! ## Beside the unit matrix -/

variable [Fintype ι]

/-- The rows whose left half is what their right half makes of `A`. -/
def beside (A : Matrix ι ι K) : Submodule K (ι ⊕ ι → K) where
  carrier := {v | v ∘ Sum.inl = Matrix.vecMul (v ∘ Sum.inr) A}
  zero_mem' := (Matrix.zero_vecMul A).symm
  add_mem' := by
    intro v w hv hw
    have hsum := congrArg₂ (· + ·) hv hw
    exact hsum.trans (Matrix.add_vecMul A _ _).symm
  smul_mem' := by
    intro a v hv
    exact (congrArg (a • ·) hv).trans (Matrix.smul_vecMul a _ A).symm

theorem beside_unit (A : Matrix ι ι K) (i : ι) :
    Sum.elim (A i) (Pi.single i 1) ∈ beside A := by
  change A i = Matrix.vecMul (Pi.single i 1) A
  rw [Matrix.single_one_vecMul]
  rfl

/-- Where the left half has become the unit matrix, the right half is the inverse. -/
theorem inverse_of_reduced {A : Matrix ι ι K} {M : ι → ι ⊕ ι → K} (hrows : ∀ i, M i ∈ beside A)
    (h : Reduced Sum.inl Set.univ M) :
    (Matrix.of fun i j => M i (Sum.inr j)) * A = 1 ∧
      A * (Matrix.of fun i j => M i (Sum.inr j)) = 1 := by
  have hleft : (Matrix.of fun i j => M i (Sum.inr j)) * A = 1 := by
    ext i j
    calc ((Matrix.of fun i j => M i (Sum.inr j)) * A) i j
        = Matrix.vecMul (M i ∘ Sum.inr) A j := rfl
      _ = M i (Sum.inl j) := (congrFun (hrows i) j).symm
      _ = (1 : Matrix ι ι K) i j := by rw [h j (Set.mem_univ j), Matrix.one_apply]
  exact ⟨hleft, mul_eq_one_comm.mp hleft⟩

end RowReduce

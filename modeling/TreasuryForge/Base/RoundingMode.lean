/-
# `Base.RoundingMode` — arithmetic that rounds every result

A program that computes in binary fractions rounds each product and each quotient.  Nothing here
depends on how: a rounding keeps order and keeps zero, and that is enough to push it through `max`
and `min` and to compare one rounded result with another.  `RoundingMode.exact` rounds nothing.
-/
import Mathlib.Algebra.Order.Field.Basic

/-- How a machine rounds what it computes. -/
structure RoundingMode (K : Type*) [Preorder K] [Zero K] where
  round : K → K
  mono : Monotone round
  zero : round 0 = 0

namespace RoundingMode

instance {K : Type*} [Preorder K] [Zero K] : CoeFun (RoundingMode K) fun _ => K → K :=
  ⟨RoundingMode.round⟩

/-- Arithmetic without rounding. -/
def exact (K : Type*) [Preorder K] [Zero K] : RoundingMode K := ⟨id, monotone_id, rfl⟩

@[simp] theorem exact_apply {K : Type*} [Preorder K] [Zero K] (x : K) : exact K x = x := rfl

section Order

variable {K : Type*} [LinearOrder K] [Zero K] (ρ : RoundingMode K)

theorem nonneg {x : K} (h : 0 ≤ x) : 0 ≤ ρ x := ρ.zero.symm.le.trans (ρ.mono h)

end Order

section Field

variable {K : Type*} [Field K] [LinearOrder K] [IsStrictOrderedRing K] (ρ : RoundingMode K)
  {x y c : K}

/-- A rounded product grows with a factor, where the other is not negative. -/
theorem mul_le_mul_right (hc : 0 ≤ c) (h : x ≤ y) : ρ (x * c) ≤ ρ (y * c) :=
  ρ.mono (mul_le_mul_of_nonneg_right h hc)

theorem mul_le_mul_left (hc : 0 ≤ c) (h : x ≤ y) : ρ (c * x) ≤ ρ (c * y) :=
  ρ.mono (mul_le_mul_of_nonneg_left h hc)

theorem max_mul (hc : 0 ≤ c) : ρ (max x y * c) = max (ρ (x * c)) (ρ (y * c)) := by
  rw [max_mul_of_nonneg _ _ hc, ρ.mono.map_max]

theorem min_mul (hc : 0 ≤ c) : ρ (min x y * c) = min (ρ (x * c)) (ρ (y * c)) := by
  rw [min_mul_of_nonneg _ _ hc, ρ.mono.map_min]

/-- What is left of a price, once it is above zero, is compared before it is rounded. -/
theorem max_zero_mul_le_iff {b : K} (hc : 0 ≤ c) : ρ (max x 0 * c) ≤ b ↔ 0 ≤ b ∧ ρ (x * c) ≤ b := by
  rw [ρ.max_mul hc, zero_mul, ρ.zero, max_le_iff, and_comm]

/-- The rounded return of a price over a positive one. -/
def simpleReturn (price entry : K) : K := ρ (ρ (price / entry) - 1)

theorem simpleReturn_mono {entry : K} (hentry : 0 < entry) (h : x ≤ y) :
    ρ.simpleReturn x entry ≤ ρ.simpleReturn y entry :=
  ρ.mono (sub_le_sub_right (ρ.mono (div_le_div_of_nonneg_right h hentry.le)) 1)

end Field

end RoundingMode

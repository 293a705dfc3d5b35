/-
# `Base.Decimal` — rounding to a decimal grid, ties to even

`roundEven` is the nearest integer, ties to the even one; `quantize x n` is the
nearest multiple of `10 ^ -n` under it, and `fixed n x` the text of that number
with `n` digits after the point.  On exact rationals these are what a language
with correctly rounded decimal conversion computes.

What the rest of the development uses is that rounding never changes a sign, and moves a
number by at most half a step.
-/
import Mathlib.Data.Rat.Floor
import Mathlib.Tactic.Linarith
import Mathlib.Tactic.Positivity
import Mathlib.Tactic.FieldSimp

namespace Decimal

/-- The nearest integer, ties to even. -/
def roundEven (x : ℚ) : ℤ :=
  let f := ⌊x⌋
  let r := x - f
  if r < 1 / 2 then f
  else if 1 / 2 < r then f + 1
  else if f % 2 = 0 then f else f + 1

/-- The nearest number with `n` decimals, ties to even. -/
def quantize (x : ℚ) (n : ℕ) : ℚ := roundEven (x * 10 ^ n) / 10 ^ n

/-- The fractional digits of `k`, padded to `n` places. -/
def pad (n k : ℕ) : String :=
  let s := toString k
  String.ofList (List.replicate (n - s.length) '0') ++ s

/-- Fixed-point text with `n` decimals. -/
def fixed (n : ℕ) (x : ℚ) : String :=
  let k := (roundEven (|x| * 10 ^ n)).toNat
  (if x < 0 then "-" else "") ++ toString (k / 10 ^ n) ++
    (if n = 0 then "" else "." ++ pad n (k % 10 ^ n))

/-! ## Rounding to an integer -/

theorem roundEven_cases (x : ℚ) :
    (roundEven x = ⌊x⌋ ∧ x - ⌊x⌋ ≤ 1 / 2) ∨ (roundEven x = ⌊x⌋ + 1 ∧ 1 / 2 ≤ x - ⌊x⌋) := by
  simp only [roundEven]
  by_cases h₁ : x - ⌊x⌋ < 1 / 2
  · exact Or.inl ⟨if_pos h₁, h₁.le⟩
  · rw [if_neg h₁]
    by_cases h₂ : 1 / 2 < x - ⌊x⌋
    · exact Or.inr ⟨if_pos h₂, h₂.le⟩
    · rw [if_neg h₂]
      by_cases h₃ : ⌊x⌋ % 2 = 0
      · exact Or.inl ⟨if_pos h₃, not_lt.mp h₂⟩
      · exact Or.inr ⟨if_neg h₃, not_lt.mp h₁⟩

theorem roundEven_intCast (k : ℤ) : roundEven (k : ℚ) = k := by
  simp [roundEven]

theorem roundEven_nonneg {x : ℚ} (h : 0 ≤ x) : 0 ≤ roundEven x := by
  have hf : 0 ≤ ⌊x⌋ := Int.floor_nonneg.mpr h
  rcases roundEven_cases x with ⟨he, _⟩ | ⟨he, _⟩ <;> omega

/-! ## Rounding to a grid -/

theorem quantize_nonneg {x : ℚ} (n : ℕ) (h : 0 ≤ x) : 0 ≤ quantize x n := by
  have hr : (0 : ℚ) ≤ roundEven (x * 10 ^ n) := by exact_mod_cast roundEven_nonneg (by positivity)
  unfold quantize
  positivity

/-- Rounding moves a number by at most half a step of the grid. -/
theorem abs_quantize_sub_le (x : ℚ) (n : ℕ) : |quantize x n - x| ≤ 1 / (2 * 10 ^ n) := by
  have hpos : (0 : ℚ) < 10 ^ n := by positivity
  have hround : |(roundEven (x * 10 ^ n) : ℚ) - x * 10 ^ n| ≤ 1 / 2 := by
    have hfloor := Int.floor_le (x * 10 ^ n)
    have hlt := Int.lt_floor_add_one (x * 10 ^ n)
    rw [abs_le]
    rcases roundEven_cases (x * 10 ^ n) with ⟨he, hle⟩ | ⟨he, hle⟩
    · rw [he]
      constructor <;> linarith
    · rw [he]
      push_cast
      constructor <;> linarith
  have hscale : quantize x n - x = (roundEven (x * 10 ^ n) - x * 10 ^ n) / 10 ^ n := by
    unfold quantize
    field_simp
  rw [hscale, abs_div, abs_of_pos hpos, div_le_div_iff₀ hpos (by positivity)]
  calc |(roundEven (x * 10 ^ n) : ℚ) - x * 10 ^ n| * (2 * 10 ^ n) ≤ 1 / 2 * (2 * 10 ^ n) :=
        mul_le_mul_of_nonneg_right hround (by positivity)
    _ = 1 * 10 ^ n := by ring

example : fixed 2 (12345 / 1000) = "12.34" := by decide +kernel

end Decimal

/-
# `Base.Digits` — rounding at any decimal place, and to significant digits

`roundAt x n` is the nearest multiple of `10 ^ -n`, ties to even, where `n` may be negative;
`significant k x` keeps `k` digits of a positive number.  `OnGrid` and `HasDigits` say what a
number has after either.

`roundEven_le_iff` and `le_roundEven_iff` are the thresholds of the rounding, with its ties;
`lt_significant_iff` is the one of the second at an even number of units.
-/
import TreasuryForge.Base.Decimal
import Mathlib.Data.Int.Log
import Mathlib.Tactic.Ring
import Mathlib.Tactic.Push

namespace Decimal

/-- The nearest multiple of `10 ^ -n`, ties to even. -/
def roundAt (x : ℚ) (n : ℤ) : ℚ := roundEven (x * 10 ^ n) / 10 ^ n

/-- The place of the first digit of a positive number. -/
def magnitude (x : ℚ) : ℤ := Int.log 10 x

/-- The nearest number with `k` significant digits, ties to even. -/
def significant (k : ℕ) (x : ℚ) : ℚ := roundAt x (k - 1 - magnitude x)

/-- A multiple of `10 ^ -n`. -/
def OnGrid (n : ℤ) (x : ℚ) : Prop := ∃ m : ℤ, x = m / 10 ^ n

/-- At most `k` significant digits. -/
def HasDigits (k : ℕ) (x : ℚ) : Prop := ∃ m e : ℤ, |m| < 10 ^ k ∧ x = m * 10 ^ e

/-! ## Thresholds -/

theorem ten_zpow_pos (n : ℤ) : (0 : ℚ) < 10 ^ n := zpow_pos (by norm_num) n

theorem ten_zpow_mul (a b : ℤ) : (10 : ℚ) ^ a * 10 ^ b = 10 ^ (a + b) :=
  (zpow_add₀ (by norm_num) a b).symm

/-- On or below the midpoint after `m` a number is rounded to `m` or less, where the midpoint
itself goes to the even one. -/
theorem roundEven_le_iff {x : ℚ} {m : ℤ} :
    roundEven x ≤ m ↔ x < m + 1 / 2 ∨ (x = m + 1 / 2 ∧ m % 2 = 0) := by
  have hfloor := Int.floor_le x
  have hlt := Int.lt_floor_add_one x
  have hle : ∀ k : ℤ, ⌊x⌋ ≤ k → (⌊x⌋ : ℚ) ≤ k := fun k h => by exact_mod_cast h
  have hge : ∀ k : ℤ, k + 1 ≤ ⌊x⌋ → (k : ℚ) + 1 ≤ ⌊x⌋ := fun k h => by exact_mod_cast h
  simp only [roundEven]
  rcases lt_trichotomy ⌊x⌋ m with hm | hm | hm
  · -- the next integer is still at most `m`
    have hmq : (⌊x⌋ : ℚ) + 1 ≤ m := by exact_mod_cast hm
    refine iff_of_true ?_ (Or.inl (by linarith))
    split_ifs <;> omega
  · subst hm
    split_ifs with h₁ h₂ h₃
    · exact iff_of_true le_rfl (Or.inl (by linarith))
    · refine iff_of_false (by omega) ?_
      rintro (h | ⟨h, -⟩) <;> linarith
    · exact iff_of_true le_rfl (Or.inr ⟨by linarith, h₃⟩)
    · refine iff_of_false (by omega) ?_
      rintro (h | ⟨-, h⟩)
      · linarith
      · exact h₃ h
  · have hmq := hge m hm
    refine iff_of_false ?_ ?_
    · split_ifs <;> omega
    · rintro (h | ⟨h, -⟩) <;> linarith

theorem le_roundEven_iff {x : ℚ} {m : ℤ} :
    m ≤ roundEven x ↔ (m : ℚ) - 1 / 2 < x ∨ (x = m - 1 / 2 ∧ m % 2 = 0) := by
  have h := roundEven_le_iff (x := x) (m := m - 1)
  have hsplit : m ≤ roundEven x ↔ ¬ roundEven x ≤ m - 1 := by omega
  rw [hsplit, h]
  push_cast
  constructor
  · intro hno
    push Not at hno
    rcases hno.1.lt_or_eq with hlt | heq
    · exact Or.inl (by linarith)
    · have hodd := hno.2 heq.symm
      exact Or.inr ⟨by linarith, by omega⟩
  · rintro (h | ⟨h, he⟩) (h' | ⟨h', he'⟩)
    · linarith
    · linarith
    · linarith
    · omega

/-- An integer bound is kept. -/
theorem roundEven_le {x : ℚ} {m : ℤ} (h : x ≤ m) : roundEven x ≤ m :=
  roundEven_le_iff.mpr (Or.inl (by linarith))

theorem le_roundEven {x : ℚ} {m : ℤ} (h : (m : ℚ) ≤ x) : m ≤ roundEven x :=
  le_roundEven_iff.mpr (Or.inl (by linarith))

theorem abs_roundEven_sub_le (x : ℚ) : |(roundEven x : ℚ) - x| ≤ 1 / 2 := by
  have h := abs_quantize_sub_le x 0
  simpa [quantize] using h

/-! ## Grids -/

theorem roundAt_onGrid (x : ℚ) (n : ℤ) : OnGrid n (roundAt x n) := ⟨_, rfl⟩

/-- A number on the grid stays. -/
theorem roundAt_of_onGrid {x : ℚ} {n : ℤ} (h : OnGrid n x) : roundAt x n = x := by
  obtain ⟨m, rfl⟩ := h
  rw [roundAt, div_mul_cancel₀ _ (ten_zpow_pos n).ne', roundEven_intCast]

/-- A finer grid has every number of a coarser one. -/
theorem OnGrid.mono {x : ℚ} {n k : ℤ} (h : OnGrid n x) (hnk : n ≤ k) : OnGrid k x := by
  obtain ⟨m, rfl⟩ := h
  obtain ⟨j, rfl⟩ : ∃ j : ℕ, k = n + j := ⟨(k - n).toNat, by omega⟩
  refine ⟨m * 10 ^ j, ?_⟩
  have hn := (ten_zpow_pos n).ne'
  rw [zpow_add₀ (by norm_num), zpow_natCast]
  push_cast
  field_simp

theorem abs_roundAt_sub_le (x : ℚ) (n : ℤ) : |roundAt x n - x| ≤ 1 / 2 / 10 ^ n := by
  have hpos := ten_zpow_pos n
  have hscale : roundAt x n - x = (roundEven (x * 10 ^ n) - x * 10 ^ n) / 10 ^ n := by
    unfold roundAt
    field_simp
  rw [hscale, abs_div, abs_of_pos hpos]
  exact div_le_div_of_nonneg_right (abs_roundEven_sub_le _) hpos.le

theorem roundAt_nonneg {x : ℚ} (n : ℤ) (h : 0 ≤ x) : 0 ≤ roundAt x n := by
  have hr : (0 : ℚ) ≤ roundEven (x * 10 ^ n) := by
    exact_mod_cast roundEven_nonneg (mul_nonneg h (ten_zpow_pos n).le)
  exact div_nonneg hr (ten_zpow_pos n).le

/-- A number of units is kept as a bound. -/
theorem le_roundAt {x : ℚ} {n m : ℤ} (h : m / 10 ^ n ≤ x) : m / 10 ^ n ≤ roundAt x n := by
  have hpos := ten_zpow_pos n
  have hm : m ≤ roundEven (x * 10 ^ n) := le_roundEven ((div_le_iff₀ hpos).mp h)
  exact div_le_div_of_nonneg_right (by exact_mod_cast hm) hpos.le

theorem roundAt_le {x : ℚ} {n m : ℤ} (h : x ≤ m / 10 ^ n) : roundAt x n ≤ m / 10 ^ n := by
  have hpos := ten_zpow_pos n
  have hm : roundEven (x * 10 ^ n) ≤ m := roundEven_le ((le_div_iff₀ hpos).mp h)
  exact div_le_div_of_nonneg_right (by exact_mod_cast hm) hpos.le

theorem OnGrid.roundAt_le {x c : ℚ} {n : ℤ} (hc : OnGrid n c) (h : x ≤ c) : roundAt x n ≤ c := by
  obtain ⟨m, rfl⟩ := hc
  exact Decimal.roundAt_le h

theorem OnGrid.le_roundAt {x c : ℚ} {n : ℤ} (hc : OnGrid n c) (h : c ≤ x) : c ≤ roundAt x n := by
  obtain ⟨m, rfl⟩ := hc
  exact Decimal.le_roundAt h

/-- The only number of the grid that is closer than half a unit. -/
theorem roundAt_of_close {x v : ℚ} {n : ℤ} (hv : OnGrid n v) (hclose : |x - v| < 1 / 2 / 10 ^ n) :
    roundAt x n = v := by
  obtain ⟨m, rfl⟩ := hv
  have hpos := ten_zpow_pos n
  have hscaled : |x * 10 ^ n - m| < 1 / 2 := by
    have hsub : x * 10 ^ n - m = (x - m / 10 ^ n) * 10 ^ n := by field_simp
    rw [hsub, abs_mul, abs_of_pos hpos]
    exact (lt_div_iff₀ hpos).mp hclose
  obtain ⟨hlow, hhigh⟩ := abs_lt.mp hscaled
  have hle : roundEven (x * 10 ^ n) ≤ m := roundEven_le_iff.mpr (Or.inl (by linarith))
  have hge : m ≤ roundEven (x * 10 ^ n) := le_roundEven_iff.mpr (Or.inl (by linarith))
  rw [roundAt, le_antisymm hle hge]

/-! ## Significant digits -/

/-- Rounding at a place adds no digits. -/
theorem HasDigits.roundAt {k : ℕ} {x : ℚ} (h : HasDigits k x) (n : ℤ) :
    HasDigits k (roundAt x n) := by
  obtain ⟨m, e, hm, rfl⟩ := h
  rcases le_or_gt 0 (e + n) with hle | hlt
  · have hgrid : OnGrid n ((m : ℚ) * 10 ^ e) := by
      obtain ⟨j, hj⟩ : ∃ j : ℕ, e + n = j := ⟨(e + n).toNat, by omega⟩
      refine ⟨m * 10 ^ j, ?_⟩
      rw [eq_div_iff (ten_zpow_pos n).ne', mul_assoc, ten_zpow_mul, hj, zpow_natCast]
      push_cast
      rfl
    rw [roundAt_of_onGrid hgrid]
    exact ⟨m, e, hm, rfl⟩
  · refine ⟨roundEven ((m : ℚ) * 10 ^ e * 10 ^ n), -n, ?_, ?_⟩
    · have hscale : (10 : ℚ) ^ e * 10 ^ n ≤ 1 := by
        rw [ten_zpow_mul]
        exact zpow_le_one_of_nonpos₀ (by norm_num) hlt.le
      have hnonneg : (0 : ℚ) ≤ 10 ^ e * 10 ^ n := mul_nonneg (ten_zpow_pos e).le (ten_zpow_pos n).le
      have habs : |(m : ℚ) * 10 ^ e * 10 ^ n| ≤ (|m| : ℤ) := by
        rw [mul_assoc, abs_mul, abs_of_nonneg hnonneg, Int.cast_abs]
        exact mul_le_of_le_one_right (abs_nonneg _) hscale
      obtain ⟨hlow, hhigh⟩ := abs_le.mp habs
      refine lt_of_le_of_lt (abs_le.mpr ⟨le_roundEven ?_, roundEven_le hhigh⟩) hm
      push_cast at hlow ⊢
      exact hlow
    · rw [Decimal.roundAt, zpow_neg, div_eq_mul_inv]

variable {x : ℚ} {k : ℕ}

theorem zpow_magnitude_le (hx : 0 < x) : (10 : ℚ) ^ magnitude x ≤ x := by
  have h := Int.zpow_log_le_self (b := 10) (by norm_num) hx
  exact_mod_cast h

theorem lt_zpow_magnitude (x : ℚ) : x < 10 ^ (magnitude x + 1) := by
  have h := Int.lt_zpow_succ_log_self (b := 10) (by norm_num) x
  exact_mod_cast h

/-- The first power of ten that is not below has the place after the magnitude. -/
theorem magnitude_lt_iff (hx : 0 < x) (e : ℤ) : magnitude x < e ↔ x < 10 ^ e := by
  have h := Int.lt_zpow_iff_log_lt (b := 10) (by norm_num) (x := e) hx
  push_cast at h
  exact h.symm

/-- A power of ten, as a number of units of a finer place. -/
theorem zpow_eq_units (a : ℤ) (j : ℕ) : (10 : ℚ) ^ a = ((10 ^ j : ℤ) : ℚ) / 10 ^ ((j : ℤ) - a) := by
  rw [eq_div_iff (ten_zpow_pos _).ne', ten_zpow_mul, show a + ((j : ℤ) - a) = j by ring,
    zpow_natCast]
  push_cast
  rfl

theorem zpow_magnitude_le_significant (hk : 1 ≤ k) (hx : 0 < x) :
    (10 : ℚ) ^ magnitude x ≤ significant k x := by
  have hunits := zpow_eq_units (magnitude x) (k - 1)
  rw [show ((k - 1 : ℕ) : ℤ) = (k : ℤ) - 1 by omega] at hunits
  rw [hunits, significant]
  refine le_roundAt ?_
  rw [← hunits]
  exact zpow_magnitude_le hx

theorem significant_le_zpow (x : ℚ) : significant k x ≤ 10 ^ (magnitude x + 1) := by
  have hunits := zpow_eq_units (magnitude x + 1) k
  rw [show (k : ℤ) - (magnitude x + 1) = k - 1 - magnitude x by ring] at hunits
  rw [hunits, significant]
  refine roundAt_le ?_
  rw [← hunits]
  exact (lt_zpow_magnitude x).le

theorem significant_pos (hk : 1 ≤ k) (hx : 0 < x) : 0 < significant k x :=
  lt_of_lt_of_le (ten_zpow_pos _) (zpow_magnitude_le_significant hk hx)

theorem hasDigits_significant (hk : 1 ≤ k) (hx : 0 < x) : HasDigits k (significant k x) := by
  rcases (significant_le_zpow (k := k) x).lt_or_eq with hlt | heq
  · refine ⟨roundEven (x * 10 ^ ((k : ℤ) - 1 - magnitude x)), magnitude x + 1 - k, ?_, ?_⟩
    · have hpos := ten_zpow_pos ((k : ℤ) - 1 - magnitude x)
      have hnonneg := roundEven_nonneg (mul_nonneg hx.le hpos.le)
      rw [abs_of_nonneg hnonneg]
      have hunits := zpow_eq_units (magnitude x + 1) k
      rw [show (k : ℤ) - (magnitude x + 1) = k - 1 - magnitude x by ring] at hunits
      rw [significant, Decimal.roundAt, hunits, div_lt_div_iff_of_pos_right hpos] at hlt
      exact_mod_cast hlt
    · rw [significant, Decimal.roundAt, div_eq_mul_inv, ← zpow_neg]
      congr 2
      ring
  · exact ⟨1, magnitude x + 1, by rw [abs_one]; exact one_lt_pow₀ (by norm_num) (by omega),
      by rw [heq, Int.cast_one, one_mul]⟩

/-- A number with no more digits stays. -/
theorem significant_of_hasDigits (hx : 0 < x) (h : HasDigits k x) : significant k x = x := by
  refine roundAt_of_onGrid ?_
  obtain ⟨m, e, hm, hxe⟩ := h
  have hbelow : x < 10 ^ (e + k) := by
    have hmq : (m : ℚ) < 10 ^ k := by exact_mod_cast lt_of_le_of_lt (le_abs_self m) hm
    calc x = (m : ℚ) * 10 ^ e := hxe
      _ < (10 : ℚ) ^ k * 10 ^ e := mul_lt_mul_of_pos_right hmq (ten_zpow_pos e)
      _ = 10 ^ (e + k) := by rw [← zpow_natCast, ten_zpow_mul, add_comm]
  have hplace := (magnitude_lt_iff hx (e + k)).mpr hbelow
  have hgrid : OnGrid (-e) x := ⟨m, by rw [hxe, zpow_neg, div_inv_eq_mul]⟩
  exact hgrid.mono (by omega)

theorem HasDigits.onGrid (hx : 0 < x) (h : HasDigits k x) : OnGrid (k - 1 - magnitude x) x := by
  have hgrid := roundAt_onGrid x (k - 1 - magnitude x)
  rwa [show Decimal.roundAt x (k - 1 - magnitude x) = x from significant_of_hasDigits hx h] at hgrid

/-- A number with `k` digits is kept as a bound. -/
theorem HasDigits.significant_le {c : ℚ} (hc : HasDigits k c) (hx : 0 < x) (h : x ≤ c) :
    significant k x ≤ c := by
  have hpos := hx.trans_le h
  rcases (Int.log_mono_right (b := 10) hx h).lt_or_eq with hlt | heq
  · calc significant k x ≤ 10 ^ (magnitude x + 1) := significant_le_zpow x
      _ ≤ 10 ^ magnitude c := zpow_le_zpow_right₀ (by norm_num) hlt
      _ ≤ c := zpow_magnitude_le hpos
  · have hgrid := hc.onGrid hpos
    rw [← show magnitude x = magnitude c from heq] at hgrid
    exact hgrid.roundAt_le h

theorem HasDigits.le_significant {c : ℚ} (hc : HasDigits k c) (hk : 1 ≤ k) (hpos : 0 < c)
    (h : c ≤ x) : c ≤ significant k x := by
  have hx := hpos.trans_le h
  rcases (Int.log_mono_right (b := 10) hpos h).lt_or_eq with hlt | heq
  · calc c ≤ 10 ^ (magnitude c + 1) := (lt_zpow_magnitude c).le
      _ ≤ 10 ^ magnitude x := zpow_le_zpow_right₀ (by norm_num) hlt
      _ ≤ significant k x := zpow_magnitude_le_significant hk hx
  · have hgrid := hc.onGrid hpos
    rw [show magnitude c = magnitude x from heq] at hgrid
    exact hgrid.le_roundAt h

/-- Keeping `k` digits moves a number by at most half a unit of the last one. -/
theorem abs_significant_sub_le (x : ℚ) (k : ℕ) :
    |significant k x - x| ≤ 1 / 2 * 10 ^ (magnitude x + 1 - k) := by
  refine (abs_roundAt_sub_le x _).trans_eq ?_
  rw [div_eq_mul_inv, ← zpow_neg]
  congr 2
  ring

/-- Above an even number of units, of the place where it has `k` digits, is what is above the
midpoint after it. -/
theorem lt_significant_iff (hk : 1 ≤ k) (hx : 0 < x) {c : ℤ} (f : ℤ) (hlow : 10 ^ (k - 1) ≤ c)
    (hhigh : c < 10 ^ k) (heven : c % 2 = 0) :
    c * 10 ^ f < significant k x ↔ (c + 1 / 2) * 10 ^ f < x := by
  have hpos := ten_zpow_pos f
  have hlowq : (10 : ℚ) ^ (f + k - 1) ≤ c * 10 ^ f := by
    have h : (10 : ℚ) ^ (k - 1) ≤ c := by exact_mod_cast hlow
    calc (10 : ℚ) ^ (f + k - 1) = (10 : ℚ) ^ (k - 1) * 10 ^ f := by
          rw [← zpow_natCast, ten_zpow_mul]
          congr 1
          omega
      _ ≤ c * 10 ^ f := mul_le_mul_of_nonneg_right h hpos.le
  have hhighq : ((c : ℚ) + 1) * 10 ^ f ≤ 10 ^ (f + k) := by
    have h : (c : ℚ) + 1 ≤ 10 ^ k := by exact_mod_cast hhigh
    calc ((c : ℚ) + 1) * 10 ^ f ≤ (10 : ℚ) ^ k * 10 ^ f := mul_le_mul_of_nonneg_right h hpos.le
      _ = 10 ^ (f + k) := by rw [← zpow_natCast, ten_zpow_mul, add_comm]
  have hup : c * 10 ^ f < (c + 1 / 2 : ℚ) * 10 ^ f := by linarith
  have hup' : (c + 1 / 2 : ℚ) * 10 ^ f < (c + 1) * 10 ^ f := by linarith
  rcases lt_trichotomy (magnitude x) (f + k - 1) with hm | hm | hm
  · -- fewer digits before the place: both sides are below
    have hx' := (magnitude_lt_iff hx (f + k - 1)).mp hm
    have hs : significant k x ≤ 10 ^ (f + k - 1) :=
      (significant_le_zpow x).trans (zpow_le_zpow_right₀ (by norm_num) (by omega))
    exact iff_of_false (by linarith) (by linarith)
  · have hplace : (k : ℤ) - 1 - magnitude x = -f := by omega
    have hunit : (10 : ℚ) ^ (-f) = (10 ^ f)⁻¹ := zpow_neg _ _
    rw [significant, hplace, roundAt, hunit, div_inv_eq_mul, mul_lt_mul_iff_left₀ hpos,
      Int.cast_lt, ← not_le, roundEven_le_iff, ← div_eq_mul_inv, div_lt_iff₀ hpos,
      div_eq_iff hpos.ne', ← lt_div_iff₀ hpos, lt_div_iff₀ hpos]
    constructor
    · intro h
      push Not at h
      rcases h.1.lt_or_eq with hlt | heq
      · exact hlt
      · exact absurd heven (h.2 heq.symm)
    · rintro h (hlt | ⟨heq, -⟩) <;> linarith
  · have hx' : (10 : ℚ) ^ (f + k) ≤ x := by
      rw [← not_lt, ← magnitude_lt_iff hx]
      omega
    have hs : (10 : ℚ) ^ (f + k) ≤ significant k x :=
      (zpow_le_zpow_right₀ (by norm_num) (by omega)).trans (zpow_magnitude_le_significant hk hx)
    exact iff_of_true (by linarith) (by linarith)

end Decimal

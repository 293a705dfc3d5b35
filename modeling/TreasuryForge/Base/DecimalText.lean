/-
# `Base.DecimalText` — plain decimal texts

`Number` is a decimal number as it is spelled: sign, coefficient and exponent.  `fixed` is what
a format with a fixed number of decimals gives, `normalize` takes the zeros at the end of the
coefficient away, `text` writes the number without an exponent, and `read` reads such a text.
`read_text` is the round trip.
-/
import TreasuryForge.Base.Digits
import Mathlib.Data.List.TakeWhile

namespace Decimal

structure Number where
  neg : Bool := false
  coeff : ℕ
  exp : ℤ
  deriving DecidableEq, Repr

/-- A text of digits, with a point among them or not. -/
def readUnsigned (cs : List Char) : Option ℚ :=
  let whole := cs.takeWhile Char.isDigit
  match cs.dropWhile Char.isDigit with
  | [] => if whole = [] then none else some (Nat.ofDigitChars 10 whole 0)
  | '.' :: frac =>
      if frac.all Char.isDigit ∧ whole ++ frac ≠ [] then
        some (Nat.ofDigitChars 10 (whole ++ frac) 0 / 10 ^ frac.length)
      else none
  | _ => none

def read : List Char → Option ℚ
  | '-' :: cs => (readUnsigned cs).map (- ·)
  | cs => readUnsigned cs

namespace Number

def value (d : Number) : ℚ := (if d.neg then -1 else 1) * (d.coeff * 10 ^ d.exp)

/-- `x` with `n` decimals, ties to even. -/
def fixed (n : ℕ) (x : ℚ) : Number := ⟨x < 0, (roundEven (|x| * 10 ^ n)).toNat, -n⟩

/-- At most so many zeros taken from the end of a coefficient. -/
def strip : ℕ → ℕ → ℤ → ℕ × ℤ
  | 0, c, e => (c, e)
  | n + 1, c, e => if c % 10 = 0 then strip n (c / 10) (e + 1) else (c, e)

/-- A coefficient has fewer digits than bits. -/
def normalize (d : Number) : Number :=
  if d.coeff = 0 then ⟨d.neg, 0, 0⟩
  else
    let (c, e) := strip (d.coeff.log2 + 1) d.coeff d.exp
    ⟨d.neg, c, e⟩

/-- The digits of `k`, with zeros before them up to `n` places. -/
def padded (n k : ℕ) : List Char :=
  let ds := Nat.toDigits 10 k
  List.replicate (n - ds.length) '0' ++ ds

def unsignedText (d : Number) : List Char :=
  if 0 ≤ d.exp then Nat.toDigits 10 d.coeff ++ List.replicate d.exp.toNat '0'
  else
    let n := (-d.exp).toNat
    Nat.toDigits 10 (d.coeff / 10 ^ n) ++ '.' :: padded n (d.coeff % 10 ^ n)

def text (d : Number) : List Char := if d.neg then '-' :: d.unsignedText else d.unsignedText

/-! ## Values -/

theorem strip_value (n c : ℕ) (e : ℤ) :
    ((strip n c e).1 : ℚ) * 10 ^ (strip n c e).2 = c * 10 ^ e := by
  induction n generalizing c e with
  | zero => rfl
  | succ n ih =>
      rw [strip]
      split
      · next hzero =>
          have hc : (c : ℚ) = (c / 10 : ℕ) * 10 := by
            exact_mod_cast (Nat.div_mul_cancel (Nat.dvd_of_mod_eq_zero hzero)).symm
          rw [ih, hc, zpow_add_one₀ (by norm_num)]
          ring
      · rfl

@[simp] theorem normalize_value (d : Number) : d.normalize.value = d.value := by
  unfold normalize
  split
  · next hzero => simp [value, hzero]
  · exact congrArg (_ * ·) (strip_value _ _ _)

theorem fixed_value_of_nonneg {x : ℚ} (n : ℕ) (hx : 0 ≤ x) : (fixed n x).value = roundAt x n := by
  have hcoeff : (((roundEven (|x| * 10 ^ n)).toNat : ℕ) : ℚ) = roundEven (x * 10 ^ (n : ℤ)) := by
    rw [abs_of_nonneg hx, zpow_natCast]
    exact_mod_cast Int.toNat_of_nonneg (roundEven_nonneg (by positivity))
  rw [value, fixed, hcoeff, roundAt, decide_eq_false (not_lt.mpr hx), if_neg Bool.false_ne_true,
    one_mul, zpow_neg, div_eq_mul_inv]

/-- A number that has no more decimals is spelled as it is. -/
theorem fixed_value {x : ℚ} {n : ℕ} (h : OnGrid n x) : (fixed n x).value = x := by
  obtain ⟨m, hm⟩ := h
  have hpos := ten_zpow_pos n
  have hscaled : |x| * 10 ^ n = ((|m| : ℤ) : ℚ) := by
    rw [hm, abs_div, abs_of_pos hpos, ← zpow_natCast, div_mul_cancel₀ _ hpos.ne', Int.cast_abs]
  have hcoeff : (((roundEven (|x| * 10 ^ n)).toNat : ℕ) : ℚ) = |x| * 10 ^ n := by
    rw [hscaled, roundEven_intCast]
    exact_mod_cast Int.toNat_of_nonneg (abs_nonneg m)
  have habs : |x| * 10 ^ n * 10 ^ (-(n : ℤ)) = |x| := by
    rw [zpow_neg, zpow_natCast, mul_inv_cancel_right₀ (by positivity)]
  rw [value, fixed, hcoeff, habs]
  by_cases hx : x < 0
  · simp [hx, abs_of_neg hx]
  · simp [hx, abs_of_nonneg (not_lt.mp hx)]

/-! ## Texts -/

theorem isDigit_padded (n k : ℕ) : ∀ c ∈ padded n k, c.isDigit = true := by
  intro c hc
  rcases List.mem_append.mp hc with hc | hc
  · rw [List.eq_of_mem_replicate hc]
    rfl
  · exact Nat.isDigit_of_mem_toDigits (by norm_num) (by norm_num) hc

theorem length_padded {n k : ℕ} (hn : 0 < n) (hk : k < 10 ^ n) : (padded n k).length = n := by
  have hle := (Nat.length_toDigits_le_iff (by norm_num) hn).mpr hk
  rw [padded, List.length_append, List.length_replicate]
  omega

theorem ofDigitChars_padded (n k : ℕ) : Nat.ofDigitChars 10 (padded n k) 0 = k := by
  rw [padded, Nat.ofDigitChars_append, Nat.ofDigitChars_replicate_zero, Nat.mul_zero,
    Nat.ofDigitChars_ten_toDigits]

theorem readUnsigned_digits {ds : List Char} (hds : ∀ c ∈ ds, c.isDigit = true) (hne : ds ≠ []) :
    readUnsigned ds = some (Nat.ofDigitChars 10 ds 0 : ℚ) := by
  unfold readUnsigned
  rw [List.dropWhile_eq_nil_iff.mpr hds, List.takeWhile_eq_self_iff.mpr hds]
  dsimp only
  rw [if_neg hne]

theorem readUnsigned_point {ds fs : List Char} (hds : ∀ c ∈ ds, c.isDigit = true)
    (hfs : ∀ c ∈ fs, c.isDigit = true) (hne : ds ≠ []) :
    readUnsigned (ds ++ '.' :: fs) =
      some (Nat.ofDigitChars 10 (ds ++ fs) 0 / 10 ^ fs.length : ℚ) := by
  have hpoint : Char.isDigit '.' = false := rfl
  have htake : (ds ++ '.' :: fs).takeWhile Char.isDigit = ds := by
    rw [List.takeWhile_append_of_pos hds, List.takeWhile_cons_of_neg (by simp [hpoint]),
      List.append_nil]
  have hdrop : (ds ++ '.' :: fs).dropWhile Char.isDigit = '.' :: fs := by
    rw [List.dropWhile_append_of_pos hds, List.dropWhile_cons_of_neg (by simp [hpoint])]
  unfold readUnsigned
  rw [htake, hdrop]
  exact if_pos ⟨List.all_eq_true.mpr hfs, fun h => hne (List.append_eq_nil_iff.mp h).1⟩

/-- What is written is the number. -/
theorem readUnsigned_text (d : Number) :
    readUnsigned d.unsignedText = some (d.coeff * 10 ^ d.exp : ℚ) := by
  have hdigits : ∀ n, ∀ c ∈ Nat.toDigits 10 n, c.isDigit = true :=
    fun n c hc => Nat.isDigit_of_mem_toDigits (by norm_num) (by norm_num) hc
  unfold unsignedText
  split
  · next hexp =>
      rw [readUnsigned_digits]
      · rw [Nat.ofDigitChars_append, Nat.ofDigitChars_replicate_zero,
          Nat.ofDigitChars_ten_toDigits]
        obtain ⟨n, hn⟩ := Int.eq_ofNat_of_zero_le hexp
        rw [hn, Int.toNat_natCast, zpow_natCast]
        push_cast
        rw [mul_comm]
      · intro c hc
        rcases List.mem_append.mp hc with hc | hc
        · exact hdigits _ c hc
        · rw [List.eq_of_mem_replicate hc]
          rfl
      · simp
  · next hexp =>
      obtain ⟨n, hn⟩ : ∃ n : ℕ, d.exp = -(n : ℤ) := ⟨(-d.exp).toNat, by omega⟩
      have hpos : 0 < n := by omega
      have hlt : d.coeff % 10 ^ n < 10 ^ n := Nat.mod_lt _ (by positivity)
      rw [hn, neg_neg, Int.toNat_natCast]
      dsimp only
      rw [readUnsigned_point (hdigits _) (isDigit_padded _ _) Nat.toDigits_ne_nil,
        length_padded hpos hlt, Nat.ofDigitChars_append, Nat.ofDigitChars_eq_ofDigitChars_zero,
        length_padded hpos hlt, ofDigitChars_padded, Nat.ofDigitChars_ten_toDigits,
        Nat.div_add_mod, zpow_neg, zpow_natCast, div_eq_mul_inv]

theorem unsignedText_head (d : Number) : ∃ c cs, d.unsignedText = c :: cs ∧ c.isDigit = true := by
  have hhead : ∀ n cs', ∃ c cs, Nat.toDigits 10 n ++ cs' = c :: cs ∧ c.isDigit = true := by
    intro n cs'
    cases hds : Nat.toDigits 10 n with
    | nil => exact absurd hds Nat.toDigits_ne_nil
    | cons c cs =>
        exact ⟨c, cs ++ cs', rfl,
          Nat.isDigit_of_mem_toDigits (by norm_num) (by norm_num) (hds ▸ List.mem_cons_self)⟩
  unfold unsignedText
  split
  · exact hhead _ _
  · exact hhead _ _

/-- Reading what is written gives the number back. -/
theorem read_text (d : Number) : read d.text = some d.value := by
  have hread := d.readUnsigned_text
  unfold text value
  cases d.neg with
  | true =>
      rw [if_pos rfl, if_pos rfl, read, hread]
      simp
  | false =>
      obtain ⟨c, cs, htext, hdigit⟩ := d.unsignedText_head
      rw [if_neg Bool.false_ne_true, if_neg Bool.false_ne_true, one_mul, ← hread, htext, read]
      rintro _ ⟨⟩
      exact absurd hdigit (by decide)

example : (fixed 8 (1234 / 100)).normalize.text = ['1', '2', '.', '3', '4'] := by decide +kernel

end Number

end Decimal

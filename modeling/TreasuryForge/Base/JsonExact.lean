/-
# `Base.JsonExact` — JSON where floats are rationals

The conversions a program applies to what it has read, with exact numbers for floats, and one
way to spell these (`Floats.exact`): the numerator, a point, and by how much the denominator is
more than one.  Integral floats are so spelled as the interpreter spells them.
-/
import TreasuryForge.Base.JsonKept
import Mathlib.Data.Rat.Cast.Order

namespace JsonText

/-! ## Conversions -/

namespace Val

/-- `float(v)`, of a number. -/
def toFloat : Val ℚ → Option ℚ
  | .bool b => some (if b then 1 else 0)
  | .int n => some n
  | .float q => some q
  | _ => Option.none

/-- `int(v)`, of a number. -/
def toInt : Val ℚ → Option ℤ
  | .bool b => some (if b then 1 else 0)
  | .int n => some n
  | .float q => some (q.num.tdiv q.den)
  | _ => Option.none

/-- `bool(v)`. -/
def toBool : Val ℚ → Bool
  | .none => false
  | .bool b => b
  | .int n => n ≠ 0
  | .float q => q ≠ 0
  | .str s => s ≠ []
  | .list vs => !vs.isEmpty
  | .dict items => !items.isEmpty

/-- What `for x in v` goes through, of a list. -/
def toList : Val ℚ → Option (List (Val ℚ))
  | .list vs => some vs
  | _ => Option.none

end Val

/-! ## Spelling rationals -/

def exactText (q : ℚ) : List Char := intText q.num ++ '.' :: Nat.toDigits 10 (q.den - 1)

def ofExact (cs : List Char) : ℚ :=
  intOf (cs.takeWhile (· ≠ '.')) / (Nat.ofDigitChars 10 ((cs.dropWhile (· ≠ '.')).drop 1) 0 + 1 : ℕ)

theorem unsigned_intText_append (n : ℤ) (cs : List Char) :
    unsigned (intText n ++ cs) = Nat.toDigits 10 n.natAbs ++ cs := by
  have hun := unsigned_intText n
  cases ht : intText n with
  | nil =>
      rw [ht] at hun
      exact absurd hun.symm Nat.toDigits_ne_nil
  | cons c ds =>
      rw [ht] at hun
      by_cases hc : c = '-'
      · subst hc
        exact congrArg (· ++ cs) hun
      · have hkeep : ∀ es : List Char, unsigned (c :: es) = c :: es := by
          intro es
          unfold unsigned
          split
          · next he => exact absurd (List.cons.inj he).1 hc
          · rfl
        rw [hkeep] at hun
        rw [List.cons_append, hkeep, ← List.cons_append, hun]

theorem takeWhile_digits {ds cs : List Char} (h : ds.all Char.isDigit = true) :
    (ds ++ '.' :: cs).takeWhile Char.isDigit = ds := by
  rw [List.takeWhile_append_of_pos (List.all_eq_true.mp h)]
  exact List.append_nil ds

theorem dropWhile_digits {ds cs : List Char} (h : ds.all Char.isDigit = true) :
    (ds ++ '.' :: cs).dropWhile Char.isDigit = '.' :: cs := by
  rw [List.dropWhile_append_of_pos (List.all_eq_true.mp h)]
  rfl

theorem isNumber_exactText (q : ℚ) : isNumber (exactText q) = true := by
  have hwhole := digits_toDigits q.num.natAbs
  have htake : (Nat.toDigits 10 (q.den - 1)).takeWhile Char.isDigit = Nat.toDigits 10 (q.den - 1) :=
    List.takeWhile_eq_self_iff.mpr (List.all_eq_true.mp (digits_toDigits _))
  have hdrop : (Nat.toDigits 10 (q.den - 1)).dropWhile Char.isDigit = [] :=
    List.dropWhile_eq_nil_iff.mpr (List.all_eq_true.mp (digits_toDigits _))
  rw [isNumber, exactText, unsigned_intText_append, takeWhile_digits hwhole,
    dropWhile_digits hwhole, isWhole_toDigits, Bool.true_and, isTail, htake, hdrop]
  simp [isExponent]

/-- The point is where the numerator ends. -/
theorem point_notMem (n : ℤ) : ∀ c ∈ intText n, decide (c ≠ '.') = true := by
  intro c hc
  rw [decide_eq_true_eq]
  rintro rfl
  have hdigit : '.' ∉ Nat.toDigits 10 n.natAbs := fun hm =>
    absurd (List.all_eq_true.mp (digits_toDigits _) '.' hm) (by decide)
  unfold intText at hc
  split at hc
  · rcases List.mem_cons.mp hc with hc | hc
    · exact absurd hc (by decide)
    · exact hdigit hc
  · exact hdigit hc

@[simp] theorem ofExact_exactText (q : ℚ) : ofExact (exactText q) = q := by
  have hden : q.den - 1 + 1 = q.den := Nat.sub_add_cancel q.pos
  have htake : (exactText q).takeWhile (· ≠ '.') = intText q.num := by
    rw [exactText, List.takeWhile_append_of_pos (point_notMem q.num)]
    exact List.append_nil _
  have hdrop : (exactText q).dropWhile (· ≠ '.') = '.' :: Nat.toDigits 10 (q.den - 1) := by
    rw [exactText, List.dropWhile_append_of_pos (point_notMem q.num)]
    rfl
  rw [ofExact, htake, hdrop, List.drop_one, List.tail_cons, Nat.ofDigitChars_ten_toDigits,
    intOf_intText, hden]
  exact Rat.num_div_den q

def Floats.exact : Floats ℚ where
  spell q := .inr ⟨exactText q, isNumber_exactText q⟩
  ofNumeral n := ofExact n.text
  ofWord _ := 0
  less a b := decide (a.elim Int.cast id < b.elim Int.cast (id : ℚ → ℚ))
  arrange ks := List.range ks.length
  arrange_perm _ := List.Perm.refl _
  word h := nomatch h
  numeral := by
    rintro x n h
    cases h
    refine ⟨?_, ofExact_exactText x⟩
    show (unsigned (exactText x)).all Char.isDigit = false
    rw [exactText, unsigned_intText_append, List.all_append, List.all_cons]
    exact Bool.and_false _

end JsonText

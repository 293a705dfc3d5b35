/-
# `Base.JsonValue` — Python values, and what JSON keeps of them

`encode` is `json.dumps` with sorted keys, up to the text: the items of a dictionary are sorted
by their keys as they are, and the keys are converted to strings after that, so the names of
an object need not come out in order, nor be distinct.  It fails, as `sorted` does, on keys
that cannot be compared.  `decode` is `json.loads` from the tree on: of several members with
one name the last is kept, and escaped surrogates that make a pair are one code point.

`Tree.again` is what is written for a tree that was read, and `again_eq_iff` says when that is
the tree itself: if its numbers are spelled as the interpreter spells them (`Tree.Spelled`, as
for every tree that came from a value), exactly when the names of every object in it come in
strictly increasing order (`Tree.ordered`).
-/
import TreasuryForge.Base.Dict
import TreasuryForge.Base.JsonScan
import Mathlib.Data.List.Lex

namespace JsonText

/-! ## Strings -/

/-- A Python string: its code points, which may be lone surrogates. -/
abbrev Str := List (Fin 0x110000)

def Str.ofChars (cs : List Char) : Str := cs.map fun c => Fin.ofNat _ c.toNat

/-- A literal of the source. -/
def Str.of (s : String) : Str := Str.ofChars s.toList

def Str.units (s : Str) : List CodeUnit := s.flatMap fun n => codeUnits n

def isHigh (u : CodeUnit) : Bool := 0xd800 ≤ u.val && u.val < 0xdc00

def isLow (u : CodeUnit) : Bool := 0xdc00 ≤ u.val && u.val < 0xe000

/-- The code point of a surrogate pair. -/
def paired (h l : CodeUnit) : Fin 0x110000 :=
  Fin.ofNat _ (0x10000 + (h.val - 0xd800) * 0x400 + (l.val - 0xdc00))

/-- Pairs are joined, and everything else is a code point of its own. -/
def Str.ofUnits : List CodeUnit → Str
  | [] => []
  | [u] => [Fin.ofNat _ u.val]
  | u :: v :: us =>
      if isHigh u && isLow v then paired u v :: Str.ofUnits us
      else Fin.ofNat _ u.val :: Str.ofUnits (v :: us)

theorem codeUnits_unit (u : CodeUnit) :
    codeUnits ((Fin.ofNat 0x110000 u.val : Fin 0x110000) : ℕ) = [u] := by
  have hu := u.isLt
  have hval : ((Fin.ofNat 0x110000 u.val : Fin 0x110000) : ℕ) = u.val := by
    rw [Fin.val_ofNat]
    omega
  rw [hval, codeUnits, if_pos hu]
  exact congrArg (fun v => [v]) (Fin.ext (by rw [Fin.val_ofNat]; omega))

theorem codeUnits_paired {u v : CodeUnit} (hu : isHigh u = true) (hv : isLow v = true) :
    codeUnits (paired u v : ℕ) = [u, v] := by
  simp only [isHigh, isLow, Bool.and_eq_true, decide_eq_true_eq] at hu hv
  have hval : (paired u v : ℕ) = 0x10000 + (u.val - 0xd800) * 0x400 + (v.val - 0xdc00) := by
    simp only [paired, Fin.val_ofNat]
    omega
  rw [hval, codeUnits, if_neg (by omega)]
  refine congrArg₂ (fun a b => [a, b]) (Fin.ext ?_) (Fin.ext ?_)
  · rw [Fin.val_ofNat]
    omega
  · rw [Fin.val_ofNat]
    omega

/-- What is read is written as it was read. -/
@[simp] theorem units_ofUnits (us : List CodeUnit) : (Str.ofUnits us).units = us := by
  induction us using Str.ofUnits.induct with
  | case1 => rfl
  | case2 u =>
      rw [Str.ofUnits]
      show codeUnits _ ++ [] = _
      rw [codeUnits_unit]
      rfl
  | case3 u v us h ih =>
      simp only [Bool.and_eq_true] at h
      rw [Str.ofUnits, if_pos (by simp [h])]
      show codeUnits (paired u v : ℕ) ++ (Str.ofUnits us).units = _
      rw [codeUnits_paired h.1 h.2, ih]
      rfl
  | case4 u v us h ih =>
      rw [Str.ofUnits, if_neg h]
      show codeUnits _ ++ (Str.ofUnits (v :: us)).units = _
      rw [codeUnits_unit, ih]
      rfl

theorem ofUnits_cons {u : CodeUnit} (h : isHigh u = false) (us : List CodeUnit) :
    Str.ofUnits (u :: us) = Fin.ofNat _ u.val :: Str.ofUnits us := by
  cases us with
  | nil => rfl
  | cons v us => rw [Str.ofUnits, h, Bool.false_and, if_neg Bool.false_ne_true]

theorem toNat_fin (c : Char) : ((Fin.ofNat 0x110000 c.toNat : Fin 0x110000) : ℕ) = c.toNat := by
  have hvalid : c.toNat < 0xd800 ∨ 0xdfff < c.toNat ∧ c.toNat < 0x110000 := c.valid
  rw [Fin.val_ofNat]
  omega

theorem ofChars_injective : Function.Injective Str.ofChars :=
  List.map_injective_iff.mpr fun c d h => by
    have hval := congrArg Fin.val h
    rw [toNat_fin, toNat_fin] at hval
    exact Char.ext (UInt32.toNat_inj.mp hval)

/-- A text of characters has no surrogates, so it comes back as it was. -/
@[simp] theorem ofUnits_units_ofChars (cs : List Char) :
    Str.ofUnits (Str.ofChars cs).units = Str.ofChars cs := by
  induction cs with
  | nil => rfl
  | cons c cs ih =>
      have hvalid : c.toNat < 0xd800 ∨ 0xdfff < c.toNat ∧ c.toNat < 0x110000 := c.valid
      have hval := toNat_fin c
      show Str.ofUnits (codeUnits _ ++ (Str.ofChars cs).units) =
        Fin.ofNat _ c.toNat :: Str.ofChars cs
      rw [hval, codeUnits]
      split
      · next h =>
          have hu : (Fin.ofNat 0x10000 c.toNat : CodeUnit).val = c.toNat := by
            rw [Fin.val_ofNat]
            omega
          have hhigh : isHigh (Fin.ofNat 0x10000 c.toNat) = false := by
            rw [isHigh, hu, Bool.and_eq_false_iff, decide_eq_false_iff_not, decide_eq_false_iff_not]
            omega
          rw [List.singleton_append, ofUnits_cons hhigh, ih, hu]
      · next h =>
          have hlt : c.toNat < 0x110000 := by omega
          have hh : (Fin.ofNat 0x10000 (0xd800 + (c.toNat - 0x10000) / 0x400) : CodeUnit).val =
              0xd800 + (c.toNat - 0x10000) / 0x400 := by
            rw [Fin.val_ofNat]
            omega
          have hl : (Fin.ofNat 0x10000 (0xdc00 + (c.toNat - 0x10000) % 0x400) : CodeUnit).val =
              0xdc00 + (c.toNat - 0x10000) % 0x400 := by
            rw [Fin.val_ofNat]
            omega
          have hhigh :
              isHigh (Fin.ofNat 0x10000 (0xd800 + (c.toNat - 0x10000) / 0x400)) = true := by
            rw [isHigh, hh, Bool.and_eq_true, decide_eq_true_eq, decide_eq_true_eq]
            omega
          have hlow : isLow (Fin.ofNat 0x10000 (0xdc00 + (c.toNat - 0x10000) % 0x400)) = true := by
            rw [isLow, hl, Bool.and_eq_true, decide_eq_true_eq, decide_eq_true_eq]
            omega
          show Str.ofUnits (_ :: _ :: (Str.ofChars cs).units) = _
          rw [Str.ofUnits, hhigh, hlow, Bool.true_and, if_pos rfl, ih]
          refine congrArg (· :: Str.ofChars cs) (Fin.ext ?_)
          rw [paired, hh, hl, Fin.val_ofNat, hval]
          omega

/-! ## Numbers -/

/-- `int.__repr__`. -/
def intText (n : ℤ) : List Char :=
  if n < 0 then '-' :: Nat.toDigits 10 n.natAbs else Nat.toDigits 10 n.natAbs

def intOf : List Char → ℤ
  | '-' :: ds => -(Nat.ofDigitChars 10 ds 0)
  | ds => Nat.ofDigitChars 10 ds 0

theorem head_toDigits {n : ℕ} (hn : 0 < n) : (Nat.toDigits 10 n).head? ≠ some '0' := by
  induction n using Nat.strongRecOn with
  | _ n ih =>
      rw [Nat.toDigits_eq_if (by decide)]
      split
      · next h =>
          have hall : ∀ k : Fin 10, 0 < k.val → Nat.digitChar k ≠ '0' := by decide
          simpa using hall ⟨n, h⟩ hn
      · next h =>
          have hrest := ih (n / 10) (by omega) (by omega)
          rw [List.head?_append_of_ne_nil _ Nat.toDigits_ne_nil]
          exact hrest

theorem digits_toDigits (n : ℕ) : (Nat.toDigits 10 n).all Char.isDigit = true :=
  List.all_eq_true.mpr fun _ hc => Nat.isDigit_of_mem_toDigits (by decide) (by decide) hc

theorem unsigned_intText (n : ℤ) : unsigned (intText n) = Nat.toDigits 10 n.natAbs := by
  unfold intText
  split
  · rfl
  · have hall := List.all_eq_true.mp (digits_toDigits n.natAbs)
    unfold unsigned
    split
    · next cs he => exact absurd (hall '-' (he ▸ List.mem_cons_self)) (by decide)
    · rfl

theorem isWhole_toDigits (n : ℕ) : isWhole (Nat.toDigits 10 n) = true := by
  rw [isWhole]
  rcases Nat.eq_zero_or_pos n with rfl | hpos
  · rfl
  · have hne : Nat.toDigits 10 n ≠ [] := Nat.toDigits_ne_nil
    simp [hne, head_toDigits hpos]

theorem isNumber_intText (n : ℤ) : isNumber (intText n) = true := by
  have hall := List.all_eq_true.mp (digits_toDigits n.natAbs)
  have htake : (Nat.toDigits 10 n.natAbs).takeWhile Char.isDigit = Nat.toDigits 10 n.natAbs :=
    List.takeWhile_eq_self_iff.mpr hall
  have hdrop : (Nat.toDigits 10 n.natAbs).dropWhile Char.isDigit = [] :=
    List.dropWhile_eq_nil_iff.mpr hall
  rw [isNumber, unsigned_intText, htake, hdrop, isWhole_toDigits]
  rfl

def intNumeral (n : ℤ) : Numeral := ⟨intText n, isNumber_intText n⟩

theorem isInteger_intNumeral (n : ℤ) : (intNumeral n).isInteger = true := by
  rw [Numeral.isInteger, intNumeral, unsigned_intText]
  exact digits_toDigits _

@[simp] theorem intOf_intText (n : ℤ) : intOf (intText n) = n := by
  have hround : Nat.ofDigitChars 10 (Nat.toDigits 10 n.natAbs) 0 = n.natAbs :=
    Nat.ofDigitChars_ten_toDigits
  have hun := unsigned_intText n
  unfold intText at hun ⊢
  split
  · next h =>
      rw [intOf, hround]
      omega
  · next h =>
      rw [if_neg h] at hun
      unfold intOf
      split
      · next ds he =>
          rw [he] at hun
          exact absurd (congrArg List.length hun) (by simp [unsigned])
      · rw [hround]
        omega

/-! ## Values -/

/-- The key of a dictionary that the encoder takes. -/
inductive Key (F : Type) where
  | none
  | bool (b : Bool)
  | int (n : ℤ)
  | float (x : F)
  | str (s : Str)

/-- What the interpreter does with floats: how one is spelled, which one a spelling is, and
whether a number is less than another.  A spelling is read as the float it came from.  Where NaN
is among the keys of a dictionary, no order sorts them, and `arrange` says in which order, as
places in the dictionary, `sorted` leaves them. -/
structure Floats (F : Type) where
  spell : F → Word ⊕ Numeral
  ofNumeral : Numeral → F
  ofWord : Word → F
  less : ℤ ⊕ F → ℤ ⊕ F → Bool
  arrange : List (Key F) → List ℕ
  word : ∀ {x w}, spell x = .inl w →
    (w = .nan ∨ w = .infinity ∨ w = .minusInfinity) ∧ ofWord w = x
  numeral : ∀ {x n}, spell x = .inr n → n.isInteger = false ∧ ofNumeral n = x
  arrange_perm : ∀ ks, (arrange ks).Perm (List.range ks.length)

/-- NaN, and no other float. -/
def Floats.nan : Floats Unit where
  spell _ := .inl .nan
  ofNumeral _ := ()
  ofWord _ := ()
  less
    | .inl m, .inl n => m < n
    | _, _ => false
  arrange ks := List.range ks.length
  word h := ⟨Or.inl (Sum.inl.inj h).symm, rfl⟩
  numeral h := nomatch h
  arrange_perm _ := List.Perm.refl _

inductive Val (F : Type) where
  | none
  | bool (b : Bool)
  | int (n : ℤ)
  | float (x : F)
  | str (s : Str)
  | list (vs : List (Val F))
  | dict (items : List (Key F × Val F))

variable {F : Type} (fl : Floats F)

def Floats.tree (x : F) : Tree :=
  match fl.spell x with
  | .inl w => .word w
  | .inr n => .num n

namespace Key

def isStr : Key F → Bool
  | .str _ => true
  | _ => false

/-- The number a key is; `True` and `False` are one and zero. -/
def number : Key F → Option (ℤ ⊕ F)
  | .bool b => some (.inl (if b then 1 else 0))
  | .int n => some (.inl n)
  | .float x => some (.inr x)
  | _ => Option.none

def less (a b : Key F) : Bool :=
  match a, b with
  | .str s, .str t => s < t
  | a, b =>
      match a.number, b.number with
      | some x, some y => fl.less x y
      | _, _ => false

def isNan : Key F → Bool
  | .float x => fl.spell x = .inl .nan
  | _ => false

/-- A key is written as a string. -/
def units : Key F → List CodeUnit
  | .none => (Str.ofChars Word.null.text).units
  | .bool true => (Str.ofChars Word.true.text).units
  | .bool false => (Str.ofChars Word.false.text).units
  | .int n => (Str.ofChars (intText n)).units
  | .float x => (Str.ofChars ((fl.tree x).render .compact)).units
  | .str s => s.units

end Key

/-- No two of these keys make `<` fail: there is one only, or they are all strings, or all
numbers. -/
def comparable (ks : List (Key F)) : Bool :=
  ks.length ≤ 1 || ks.all Key.isStr || ks.all fun k => k.number.isSome

/-- `sorted(items)`; no two keys are equal, so no values are compared. -/
def sortItems {V : Type} (items : List (Key F × V)) : Option (List (Key F × V)) :=
  let ks := items.map Prod.fst
  if comparable ks then
    if ks.any (Key.isNan fl) then some ((fl.arrange ks).filterMap fun i => items[i]?)
    else some (items.insertionSort fun a b => b.1.less fl a.1 = false)
  else none

theorem mem_of_sortItems {V : Type} {items sorted : List (Key F × V)} {m : Key F × V}
    (h : sortItems fl items = some sorted) (hm : m ∈ sorted) : m ∈ items := by
  unfold sortItems at h
  dsimp only at h
  split at h
  · split at h
    · obtain rfl := Option.some.inj h
      obtain ⟨i, -, hi⟩ := List.mem_filterMap.mp hm
      exact List.mem_of_getElem? hi
    · obtain rfl := Option.some.inj h
      exact (List.mem_insertionSort _).mp hm
  · cases h

mutual

/-- The tree `json.dumps` writes, with sorted keys. -/
def encode : Val F → Option Tree
  | .none => some (.word .null)
  | .bool b => some (.word (if b then .true else .false))
  | .int n => some (.num (intNumeral n))
  | .float x => some (fl.tree x)
  | .str s => some (.str s.units)
  | .list vs => (encodeAll vs).map .arr
  | .dict items =>
      (encodeItems items).bind fun ms =>
        (sortItems fl ms).map fun ms => .obj (ms.map fun m => (m.1.units fl, m.2))

def encodeAll : List (Val F) → Option (List Tree)
  | [] => some []
  | v :: vs => (encode v).bind fun t => (encodeAll vs).map (t :: ·)

def encodeItems : List (Key F × Val F) → Option (List (Key F × Tree))
  | [] => some []
  | (k, v) :: items => (encode v).bind fun t => (encodeItems items).map ((k, t) :: ·)

end

/-- `dict(pairs)`: the last of several pairs with one name counts. -/
def lastWins {V : Type} (ms : List (Str × V)) : List (Str × V) :=
  ms.foldl (fun d m => Dict.setRaw m.1 m.2 d) []

mutual

/-- The value `json.loads` makes of a tree. -/
def decode : Tree → Val F
  | .word .null => .none
  | .word .true => .bool true
  | .word .false => .bool false
  | .word w => .float (fl.ofWord w)
  | .num n => if n.isInteger then .int (intOf n.text) else .float (fl.ofNumeral n)
  | .str us => .str (Str.ofUnits us)
  | .arr ts => .list (decodeAll ts)
  | .obj ms => .dict ((lastWins (decodeMembers ms)).map fun m => (.str m.1, m.2))

def decodeAll : List Tree → List (Val F)
  | [] => []
  | t :: ts => decode t :: decodeAll ts

def decodeMembers : List (List CodeUnit × Tree) → List (Str × Val F)
  | [] => []
  | (k, t) :: ms => (Str.ofUnits k, decode t) :: decodeMembers ms

end

/-- `json.dumps(v, sort_keys=True)`; fails on keys that cannot be compared. -/
def dumps (y : Style) (v : Val F) : Option (List Char) := (encode fl v).map (Tree.render y)

/-- `json.loads`; fails on a text that is no JSON. -/
def loads (cs : List Char) : Option (Val F) := (scan cs).map (decode fl)

/-- `dict.get`, of a literal of the source. -/
def get? (items : List (Key F × Val F)) (name : String) : Option (Val F) :=
  items.findSome? fun
    | (.str s, v) => if s = Str.of name then some v else none
    | _ => none

/-! ## Writing again what was read -/

/-- The members by name. -/
def sortMembers {V : Type} (ms : List (Str × V)) : List (Str × V) :=
  ms.insertionSort fun a b => a.1 ≤ b.1

mutual

/-- The tree that is written for the value of a tree. -/
def Tree.again : Tree → Tree
  | .word .null => .word .null
  | .word .true => .word .true
  | .word .false => .word .false
  | .word w => fl.tree (fl.ofWord w)
  | .num n => if n.isInteger then .num (intNumeral (intOf n.text)) else fl.tree (fl.ofNumeral n)
  | .str us => .str us
  | .arr ts => .arr (againAll ts)
  | .obj ms => .obj ((sortMembers (lastWins (againMembers ms))).map fun m => (m.1.units, m.2))

def againAll : List Tree → List Tree
  | [] => []
  | t :: ts => t.again :: againAll ts

def againMembers : List (List CodeUnit × Tree) → List (Str × Tree)
  | [] => []
  | (k, t) :: ms => (Str.ofUnits k, t.again) :: againMembers ms

end

section LastWins
variable {V W : Type}

theorem map_setRaw (f : V → W) (k : Str) (v : V) (d : List (Str × V)) :
    (Dict.setRaw k v d).map (fun m => (m.1, f m.2)) =
      Dict.setRaw k (f v) (d.map fun m => (m.1, f m.2)) := by
  induction d with
  | nil => rfl
  | cons m d ih =>
      simp only [Dict.setRaw, List.map_cons]
      split
      · rfl
      · rw [List.map_cons, ih]

theorem map_lastWins (f : V → W) (ms : List (Str × V)) :
    (lastWins ms).map (fun m => (m.1, f m.2)) = lastWins (ms.map fun m => (m.1, f m.2)) := by
  have hfold : ∀ d : List (Str × V),
      (ms.foldl (fun d m => Dict.setRaw m.1 m.2 d) d).map (fun m => (m.1, f m.2)) =
        (ms.map fun m => (m.1, f m.2)).foldl (fun d m => Dict.setRaw m.1 m.2 d)
          (d.map fun m => (m.1, f m.2)) := by
    induction ms with
    | nil => exact fun _ => rfl
    | cons m ms ih =>
        intro d
        rw [List.foldl_cons, ih, map_setRaw]
        rfl
  exact hfold []

theorem nodup_lastWins (ms : List (Str × V)) : ((lastWins ms).map Prod.fst).Nodup := by
  have hfold : ∀ d : List (Str × V), (d.map Prod.fst).Nodup →
      ((ms.foldl (fun d m => Dict.setRaw m.1 m.2 d) d).map Prod.fst).Nodup := by
    induction ms with
    | nil => exact fun _ h => h
    | cons m ms ih => exact fun d h => ih _ (Dict.nodup_setRaw m.1 m.2 h)
  exact hfold [] List.nodup_nil

theorem setRaw_of_notMem {k : Str} {v : V} {d : List (Str × V)} (h : k ∉ d.map Prod.fst) :
    Dict.setRaw k v d = d ++ [(k, v)] := by
  induction d with
  | nil => rfl
  | cons m d ih =>
      rw [List.map_cons, List.mem_cons, not_or] at h
      rw [Dict.setRaw, if_neg fun e => h.1 e.symm, ih h.2]
      rfl

/-- Where no name comes twice, every member counts. -/
theorem lastWins_of_nodup {ms : List (Str × V)} (h : (ms.map Prod.fst).Nodup) :
    lastWins ms = ms := by
  have hfold : ∀ d : List (Str × V), ((d ++ ms).map Prod.fst).Nodup →
      ms.foldl (fun d m => Dict.setRaw m.1 m.2 d) d = d ++ ms := by
    induction ms with
    | nil => exact fun d _ => (List.append_nil d).symm
    | cons m ms ih =>
        intro d hd
        have hnew : m.1 ∉ d.map Prod.fst := by
          rw [List.map_append, List.map_cons] at hd
          intro hm
          exact (List.nodup_append.mp hd).2.2 m.1 hm m.1 List.mem_cons_self rfl
        have happ : d ++ [m] ++ ms = d ++ m :: ms := by rw [List.append_assoc]; rfl
        rw [List.foldl_cons, setRaw_of_notMem hnew,
          ih ((List.nodup_cons.mp h).2) _ (by rw [happ]; exact hd), happ]
  exact hfold [] h

theorem mem_of_mem_setRaw {k : Str} {v : V} {d : List (Str × V)} {m : Str × V}
    (h : m ∈ Dict.setRaw k v d) : m = (k, v) ∨ m ∈ d := by
  induction d with
  | nil => exact Or.inl (List.mem_singleton.mp h)
  | cons n d ih =>
      rw [Dict.setRaw] at h
      split at h
      · exact (List.mem_cons.mp h).imp id (List.mem_cons_of_mem n)
      · rcases List.mem_cons.mp h with rfl | h
        · exact Or.inr List.mem_cons_self
        · exact (ih h).imp id (List.mem_cons_of_mem n)

theorem mem_of_mem_lastWins {ms : List (Str × V)} {m : Str × V} (h : m ∈ lastWins ms) : m ∈ ms := by
  have hfold : ∀ d : List (Str × V), m ∈ ms.foldl (fun d m => Dict.setRaw m.1 m.2 d) d →
      m ∈ d ∨ m ∈ ms := by
    clear h
    induction ms with
    | nil => exact fun _ h => Or.inl h
    | cons n ms ih =>
        intro d h
        rcases ih _ h with h | h
        · rcases mem_of_mem_setRaw h with rfl | h
          · exact Or.inr List.mem_cons_self
          · exact Or.inl h
        · exact Or.inr (List.mem_cons_of_mem n h)
  exact (hfold [] h).resolve_left List.not_mem_nil

end LastWins

section SortMembers
variable {V W : Type}

instance : IsTrans (Str × V) fun a b => a.1 ≤ b.1 := ⟨fun _ _ _ h h' => h.trans h'⟩

instance : Std.Total fun a b : Str × V => a.1 ≤ b.1 := ⟨fun a b => le_total a.1 b.1⟩

theorem sortMembers_of_pairwise {ms : List (Str × V)}
    (h : (ms.map Prod.fst).Pairwise (· < ·)) : sortMembers ms = ms :=
  ((List.pairwise_map.mp h).imp fun hlt => hlt.le).insertionSort_eq

theorem perm_sortMembers (ms : List (Str × V)) : (sortMembers ms).Perm ms :=
  List.perm_insertionSort _ ms

/-- Distinct names come out in strictly increasing order. -/
theorem pairwise_sortMembers {ms : List (Str × V)} (h : (ms.map Prod.fst).Nodup) :
    ((sortMembers ms).map Prod.fst).Pairwise (· < ·) := by
  have hle : (sortMembers ms).Pairwise fun a b => a.1 ≤ b.1 := List.pairwise_insertionSort _ ms
  have hne : ((sortMembers ms).map Prod.fst).Nodup :=
    ((perm_sortMembers ms).map Prod.fst).nodup_iff.mpr h
  rw [List.pairwise_map]
  exact (hle.and (List.pairwise_map.mp hne)).imp fun hab => lt_of_le_of_ne hab.1 hab.2

theorem map_sortMembers (f : V → W) (ms : List (Str × V)) :
    (sortMembers ms).map (fun m => (m.1, f m.2)) = sortMembers (ms.map fun m => (m.1, f m.2)) :=
  List.map_insertionSort _ _ _ _ fun _ _ _ _ => Iff.rfl

end SortMembers

/-- On string keys, sorting is by code points. -/
theorem sortItems_str {V : Type} (ms : List (Str × V)) :
    sortItems fl (ms.map fun m => (Key.str m.1, m.2)) =
      some ((sortMembers ms).map fun m => (Key.str m.1, m.2)) := by
  have hcmp : comparable ((ms.map fun m => (Key.str (F := F) m.1, m.2)).map Prod.fst) = true := by
    have hall : ((ms.map fun m => (Key.str (F := F) m.1, m.2)).map Prod.fst).all Key.isStr =
        true := by
      simp [Key.isStr]
    rw [comparable, hall, Bool.or_true, Bool.true_or]
  have hnan : ((ms.map fun m => (Key.str (F := F) m.1, m.2)).map Prod.fst).any (Key.isNan fl) =
      false := by
    simp [Key.isNan]
  rw [sortItems, if_pos hcmp, hnan, if_neg Bool.false_ne_true]
  refine congrArg some (Eq.symm (List.map_insertionSort _ _ _ _ ?_))
  intro a _ b _
  simp [Key.less]

/-- The tree of a value that has one. -/
def written (v : Val F) : Tree := (encode fl v).getD (.word .null)

variable {fl} in
theorem written_eq {v : Val F} {t : Tree} (ht : encode fl v = some t) : written fl v = t := by
  rw [written, ht]
  rfl

theorem encodeItems_str {ms : List (Str × Val F)} (h : ∀ m ∈ ms, (encode fl m.2).isSome = true) :
    encodeItems fl (ms.map fun m => (.str m.1, m.2)) =
      some (ms.map fun m => (.str m.1, written fl m.2)) := by
  induction ms with
  | nil => rfl
  | cons m ms ih =>
      have hm : encode fl m.2 = some (written fl m.2) := by
        obtain ⟨t, ht⟩ := Option.isSome_iff_exists.mp (h m List.mem_cons_self)
        rw [written, ht]
        rfl
      rw [List.map_cons, encodeItems, hm, Option.bind_some,
        ih fun n hn => h n (List.mem_cons_of_mem m hn)]
      rfl

mutual

/-- A value that was read can be written again. -/
theorem encode_decode : ∀ t : Tree, encode fl (decode fl t) = some (t.again fl)
  | .word w => by cases w <;> rfl
  | .num n => by
      rw [decode, Tree.again]
      split <;> rfl
  | .str us => by
      rw [decode, encode, units_ofUnits]
      rfl
  | .arr ts => by
      rw [decode, encode, encodeAll_decodeAll]
      rfl
  | .obj ms => by
      obtain ⟨hsome, hagain⟩ := encode_decodeMembers ms
      have hitems := encodeItems_str fl fun m hm => hsome m (mem_of_mem_lastWins hm)
      have hmap : (lastWins (decodeMembers fl ms)).map
            (fun m => (Key.str (F := F) m.1, written fl m.2)) =
          (lastWins (againMembers fl ms)).map fun m => (Key.str m.1, m.2) := by
        rw [← hagain, ← map_lastWins, List.map_map]
        rfl
      rw [decode, encode, hitems, Option.bind_some, hmap, sortItems_str, Option.map_some,
        Tree.again, List.map_map]
      rfl

theorem encodeAll_decodeAll :
    ∀ ts : List Tree, encodeAll fl (decodeAll fl ts) = some (againAll fl ts)
  | [] => rfl
  | t :: ts => by
      rw [decodeAll, encodeAll, encode_decode t, Option.bind_some, encodeAll_decodeAll ts]
      rfl

theorem encode_decodeMembers : ∀ ms : List (List CodeUnit × Tree),
    (∀ m ∈ decodeMembers fl ms, (encode fl m.2).isSome = true) ∧
    (decodeMembers fl ms).map (fun m => (m.1, written fl m.2)) = againMembers fl ms
  | [] => ⟨fun m hm => absurd hm List.not_mem_nil, rfl⟩
  | (k, t) :: ms => by
      obtain ⟨hsome, hagain⟩ := encode_decodeMembers ms
      have ht := encode_decode t
      refine ⟨fun m hm => ?_, ?_⟩
      · rcases List.mem_cons.mp hm with rfl | hm
        · simp only [ht, Option.isSome_some]
        · exact hsome m hm
      · rw [decodeMembers, List.map_cons, hagain, againMembers, written, ht]
        rfl

end

/-! ## When nothing changes -/

mutual

/-- The names of every object, as they are read, come in strictly increasing order. -/
def Tree.ordered : Tree → Bool
  | .arr ts => orderedAll ts
  | .obj ms => decide ((ms.map fun m => Str.ofUnits m.1).Pairwise (· < ·)) && orderedMembers ms
  | _ => true

def orderedAll : List Tree → Bool
  | [] => true
  | t :: ts => t.ordered && orderedAll ts

def orderedMembers : List (List CodeUnit × Tree) → Bool
  | [] => true
  | (_, t) :: ms => t.ordered && orderedMembers ms

end

mutual

/-- Every number is spelled as the interpreter spells it. -/
def Tree.Spelled : Tree → Prop
  | .word w => (w = .null ∨ w = .true ∨ w = .false) ∨ ∃ x, fl.spell x = .inl w
  | .num n => (∃ i, n = intNumeral i) ∨ ∃ x, fl.spell x = .inr n
  | .str _ => True
  | .arr ts => SpelledAll ts
  | .obj ms => SpelledMembers ms

def SpelledAll : List Tree → Prop
  | [] => True
  | t :: ts => t.Spelled ∧ SpelledAll ts

def SpelledMembers : List (List CodeUnit × Tree) → Prop
  | [] => True
  | (_, t) :: ms => t.Spelled ∧ SpelledMembers ms

end

theorem tree_spelled (x : F) : (fl.tree x).Spelled fl := by
  unfold Floats.tree
  cases h : fl.spell x with
  | inl w => exact Or.inr ⟨x, h⟩
  | inr n => exact Or.inr ⟨x, h⟩

theorem spelledMembers_iff {ms : List (List CodeUnit × Tree)} :
    SpelledMembers fl ms ↔ ∀ m ∈ ms, m.2.Spelled fl := by
  induction ms with
  | nil => exact ⟨fun _ m hm => absurd hm List.not_mem_nil, fun _ => trivial⟩
  | cons m ms ih =>
      rw [SpelledMembers, ih, List.forall_mem_cons]

mutual

/-- What is written for a value is spelled by the interpreter. -/
theorem encode_spelled : ∀ {v : Val F} {t : Tree}, encode fl v = some t → t.Spelled fl
  | .none, t, h => by
      cases h
      exact Or.inl (Or.inl rfl)
  | .bool b, t, h => by
      cases h
      cases b
      · exact Or.inl (Or.inr (Or.inr rfl))
      · exact Or.inl (Or.inr (Or.inl rfl))
  | .int n, t, h => by
      cases h
      exact Or.inl ⟨n, rfl⟩
  | .float x, t, h => by
      cases h
      exact tree_spelled fl x
  | .str s, t, h => by
      cases h
      trivial
  | .list vs, t, h => by
      obtain ⟨ts, hts, rfl⟩ := Option.map_eq_some_iff.mp h
      exact encodeAll_spelled hts
  | .dict items, t, h => by
      obtain ⟨ms, hms, h⟩ := Option.bind_eq_some_iff.mp h
      obtain ⟨ms', hsort, rfl⟩ := Option.map_eq_some_iff.mp h
      have hall := encodeItems_spelled hms
      rw [Tree.Spelled, spelledMembers_iff]
      intro m hm
      obtain ⟨m', hm', rfl⟩ := List.mem_map.mp hm
      exact hall m' (mem_of_sortItems fl hsort hm')

theorem encodeAll_spelled : ∀ {vs : List (Val F)} {ts : List Tree}, encodeAll fl vs = some ts →
    SpelledAll fl ts
  | [], ts, h => by
      cases h
      trivial
  | v :: vs, ts, h => by
      obtain ⟨t, ht, h⟩ := Option.bind_eq_some_iff.mp h
      obtain ⟨ts', hts, rfl⟩ := Option.map_eq_some_iff.mp h
      exact ⟨encode_spelled ht, encodeAll_spelled hts⟩

theorem encodeItems_spelled : ∀ {items : List (Key F × Val F)} {ms : List (Key F × Tree)},
    encodeItems fl items = some ms → ∀ m ∈ ms, m.2.Spelled fl
  | [], ms, h => by
      cases h
      exact fun m hm => absurd hm List.not_mem_nil
  | (k, v) :: items, ms, h => by
      obtain ⟨t, ht, h⟩ := Option.bind_eq_some_iff.mp h
      obtain ⟨ms', hms, rfl⟩ := Option.map_eq_some_iff.mp h
      intro m hm
      rcases List.mem_cons.mp hm with rfl | hm
      · exact encode_spelled ht
      · exact encodeItems_spelled hms m hm

end

theorem keys_againMembers (ms : List (List CodeUnit × Tree)) :
    (againMembers fl ms).map Prod.fst = ms.map fun m => Str.ofUnits m.1 := by
  induction ms with
  | nil => rfl
  | cons m ms ih => exact congrArg (Str.ofUnits m.1 :: ·) ih

/-- An object is written again with its names in order. -/
theorem again_obj {ms : List (List CodeUnit × Tree)}
    (h : (ms.map fun m => Str.ofUnits m.1).Pairwise (· < ·)) :
    (Tree.obj ms).again fl = .obj ((againMembers fl ms).map fun m => (m.1.units, m.2)) := by
  rw [← keys_againMembers fl ms] at h
  have hne : ((againMembers fl ms).map Prod.fst).Nodup := h.imp fun hlt => hlt.ne
  rw [Tree.again, lastWins_of_nodup hne, sortMembers_of_pairwise h]

/-- The names a tree is written again with are read as themselves. -/
theorem ofUnits_units_of_mem {ms : List (List CodeUnit × Tree)} {m : Str × Tree}
    (h : m ∈ againMembers fl ms) : Str.ofUnits m.1.units = m.1 := by
  have hkey : m.1 ∈ ms.map fun m => Str.ofUnits m.1 := by
    rw [← keys_againMembers fl ms]
    exact List.mem_map_of_mem h
  obtain ⟨n, -, hn⟩ := List.mem_map.mp hkey
  rw [← hn, units_ofUnits]

theorem pairwise_of_again {ms : List (List CodeUnit × Tree)}
    (h : (Tree.obj ms).again fl = .obj ms) :
    (ms.map fun m => Str.ofUnits m.1).Pairwise (· < ·) := by
  rw [Tree.again] at h
  have hms := Tree.obj.inj h
  have hkeys : (ms.map fun m => Str.ofUnits m.1) =
      (sortMembers (lastWins (againMembers fl ms))).map Prod.fst := by
    calc (ms.map fun m => Str.ofUnits m.1)
        = (sortMembers (lastWins (againMembers fl ms))).map fun m => Str.ofUnits m.1.units := by
          conv_lhs => rw [← hms, List.map_map]
          rfl
      _ = (sortMembers (lastWins (againMembers fl ms))).map Prod.fst := by
          refine List.map_congr_left ?_
          intro m hm
          have hmem : m ∈ againMembers fl ms :=
            mem_of_mem_lastWins ((perm_sortMembers _).subset hm)
          exact ofUnits_units_of_mem fl hmem
  rw [hkeys]
  exact pairwise_sortMembers (nodup_lastWins _)

mutual

/-- A spelled tree is written again as it is exactly when its names are in order. -/
theorem again_eq_iff : ∀ {t : Tree}, t.Spelled fl → (t.again fl = t ↔ t.ordered = true)
  | .word w, h => by
      refine ⟨fun _ => rfl, fun _ => ?_⟩
      rcases h with (rfl | rfl | rfl) | ⟨x, hx⟩
      · rfl
      · rfl
      · rfl
      · obtain ⟨hw, hof⟩ := fl.word hx
        have htree : fl.tree (fl.ofWord w) = .word w := by
          rw [hof, Floats.tree, hx]
        rcases hw with rfl | rfl | rfl
        · exact htree
        · exact htree
        · exact htree
  | .num n, h => by
      refine ⟨fun _ => rfl, fun _ => ?_⟩
      rw [Tree.again]
      rcases h with ⟨i, rfl⟩ | ⟨x, hx⟩
      · rw [if_pos (isInteger_intNumeral i)]
        exact congrArg (fun j => Tree.num (intNumeral j)) (intOf_intText i)
      · obtain ⟨hint, hof⟩ := fl.numeral hx
        rw [hint, hof, Floats.tree, hx]
        rfl
  | .str us, _ => ⟨fun _ => rfl, fun _ => rfl⟩
  | .arr ts, h => by
      rw [Tree.again, Tree.arr.injEq]
      exact againAll_eq_iff h
  | .obj ms, h => by
      rw [Tree.ordered, Bool.and_eq_true, decide_eq_true_eq]
      have hmembers := againMembers_eq_iff (show SpelledMembers fl ms from h)
      constructor
      · intro he
        have hsorted := pairwise_of_again fl he
        rw [again_obj fl hsorted, Tree.obj.injEq] at he
        exact ⟨hsorted, hmembers.mp he⟩
      · rintro ⟨hsorted, hrest⟩
        rw [again_obj fl hsorted, Tree.obj.injEq]
        exact hmembers.mpr hrest

theorem againAll_eq_iff : ∀ {ts : List Tree}, SpelledAll fl ts →
    (againAll fl ts = ts ↔ orderedAll ts = true)
  | [], _ => ⟨fun _ => rfl, fun _ => rfl⟩
  | t :: ts, h => by
      rw [againAll, orderedAll, Bool.and_eq_true, List.cons.injEq, again_eq_iff h.1,
        againAll_eq_iff h.2]

theorem againMembers_eq_iff : ∀ {ms : List (List CodeUnit × Tree)}, SpelledMembers fl ms →
    ((againMembers fl ms).map (fun m => (m.1.units, m.2)) = ms ↔ orderedMembers ms = true)
  | [], _ => ⟨fun _ => rfl, fun _ => rfl⟩
  | (k, t) :: ms, h => by
      rw [againMembers, List.map_cons, orderedMembers, Bool.and_eq_true, List.cons.injEq,
        againMembers_eq_iff h.2, Prod.mk.injEq, units_ofUnits, again_eq_iff h.1]
      exact and_congr_left' (and_iff_right rfl)

end

end JsonText

/-
# `Base.Dynamic` — reading decoded JSON without looking

What a dynamic language does with a decoded value whose shape nobody checked: each operation
takes the shapes it is for, and raises on every other.  The `*_ok_iff` lemmas say which shapes
these are, and `ok_bind` and `ok_mapM` carry that through a computation.
-/
import TreasuryForge.Base.JsonExact
import Mathlib.Data.Rat.Floor
import Mathlib.Algebra.Order.Group.Abs

/-! ## Computations that may raise -/

namespace Raising

variable {ε A B : Type}

/-- It does not raise. -/
def Ok (e : Except ε A) : Prop := ∃ a, e = .ok a

@[simp] theorem ok_pure (a : A) : Ok (.ok a : Except ε A) := ⟨a, rfl⟩

@[simp] theorem not_ok_error (e : ε) : ¬ Ok (.error e : Except ε A) := by
  rintro ⟨a, h⟩
  cases h

theorem ok_bind {e : Except ε A} {f : A → Except ε B} :
    Ok (e >>= f) ↔ ∃ a, e = .ok a ∧ Ok (f a) := by
  cases e with
  | error e =>
      refine iff_of_false (not_ok_error e) ?_
      rintro ⟨a, h, -⟩
      cases h
  | ok a =>
      constructor
      · intro h
        exact ⟨a, rfl, h⟩
      · rintro ⟨b, h, hok⟩
        cases h
        exact hok

/-- A loop raises exactly when it raises on some item. -/
theorem ok_mapM {f : A → Except ε B} {as : List A} : Ok (as.mapM f) ↔ ∀ a ∈ as, Ok (f a) := by
  induction as with
  | nil => exact iff_of_true ⟨[], rfl⟩ fun _ h => absurd h List.not_mem_nil
  | cons a as ih =>
      rw [List.mapM_cons, ok_bind, List.forall_mem_cons, ← ih]
      constructor
      · rintro ⟨b, hb, hrest⟩
        obtain ⟨bs, hbs, -⟩ := ok_bind.mp hrest
        exact ⟨⟨b, hb⟩, bs, hbs⟩
      · rintro ⟨⟨b, hb⟩, bs, hbs⟩
        exact ⟨b, hb, ok_bind.mpr ⟨bs, hbs, ok_pure _⟩⟩

/-- What a loop that did not raise has made of its items. -/
theorem mapM_eq_ok {f : A → Except ε B} {as : List A} {bs : List B} (h : as.mapM f = .ok bs) :
    (∀ b ∈ bs, ∃ a ∈ as, f a = .ok b) ∧ ∀ a ∈ as, ∃ b ∈ bs, f a = .ok b := by
  induction as generalizing bs with
  | nil =>
      cases h
      exact ⟨fun b hb => absurd hb List.not_mem_nil, fun a ha => absurd ha List.not_mem_nil⟩
  | cons a as ih =>
      rw [List.mapM_cons] at h
      cases hfirst : f a with
      | error e =>
          rw [hfirst] at h
          cases h
      | ok b =>
          cases hrest : as.mapM f with
          | error e =>
              rw [hfirst, hrest] at h
              cases h
          | ok bs' =>
              rw [hfirst, hrest] at h
              cases h
              obtain ⟨hmade, hall⟩ := ih hrest
              constructor
              · intro b' hb'
                rcases List.mem_cons.mp hb' with rfl | hlater
                · exact ⟨a, List.mem_cons_self, hfirst⟩
                · obtain ⟨a', ha', hb'⟩ := hmade b' hlater
                  exact ⟨a', List.mem_cons_of_mem a ha', hb'⟩
              · intro a' ha'
                rcases List.mem_cons.mp ha' with rfl | hlater
                · exact ⟨b, List.mem_cons_self, hfirst⟩
                · obtain ⟨b', hb', hmade⟩ := hall a' hlater
                  exact ⟨b', List.mem_cons_of_mem b hb', hmade⟩

end Raising

namespace JsonText

open Raising

/-! ## Floats -/

/-- A float: an exact number, or one of the three that are none. -/
inductive PyFloat where
  | fin (q : ℚ)
  | inf (negative : Bool)
  | nan
  deriving DecidableEq, Repr

namespace PyFloat

def abs : PyFloat → PyFloat
  | fin q => fin |q|
  | inf _ => inf false
  | nan => nan

def add : PyFloat → PyFloat → PyFloat
  | fin a, fin b => fin (a + b)
  | nan, _ => nan
  | _, nan => nan
  | inf a, inf b => if a = b then inf a else nan
  | inf a, fin _ => inf a
  | fin _, inf b => inf b

/-- The sign of a number that is not zero. -/
def sign : PyFloat → Bool
  | fin q => q < 0
  | inf negative => negative
  | nan => false

def mul (a b : PyFloat) : PyFloat :=
  match a, b with
  | fin p, fin q => fin (p * q)
  | nan, _ => nan
  | _, nan => nan
  | a, b => if a = fin 0 ∨ b = fin 0 then nan else inf (a.sign != b.sign)

/-- The divisor is not zero. -/
def div (a b : PyFloat) : PyFloat :=
  match a, b with
  | fin p, fin q => fin (p / q)
  | nan, _ => nan
  | _, nan => nan
  | inf _, inf _ => nan
  | fin _, inf _ => fin 0
  | inf n, b => inf (n != b.sign)

/-- `x <= 0` -/
def nonpos : PyFloat → Bool
  | fin q => q ≤ 0
  | inf negative => negative
  | nan => false

def sum (xs : List PyFloat) : PyFloat := xs.foldl add (fin 0)

/-- `a < b` -/
def lt : PyFloat → PyFloat → Bool
  | fin p, fin q => p < q
  | inf n, fin _ => n
  | fin _, inf n => !n
  | inf a, inf b => a && !b
  | _, _ => false

/-- `max(a, b)`: the first, unless the second is greater. -/
def max (a b : PyFloat) : PyFloat := if a.lt b then b else a

/-- `min(a, b)` -/
def min (a b : PyFloat) : PyFloat := if b.lt a then b else a

end PyFloat

/-! ## What is done with a value -/

/-- Whether a text is the literal of a float, or of an integer. -/
structure Literals where
  float : Str → Option PyFloat
  int : Str → Option ℤ

/-- No text is one. -/
def Literals.none : Literals := ⟨fun _ => .none, fun _ => .none⟩

/-- From here on an integer is no float. -/
def floatLimit : ℤ := 2 ^ 1024 - 2 ^ 970

namespace Val

variable {F : Type}

def typeName : Val F → String
  | .none => "NoneType"
  | .bool _ => "bool"
  | .int _ => "int"
  | .float _ => "float"
  | .str _ => "str"
  | .list _ => "list"
  | .dict _ => "dict"

/-- `v.get(name)` -/
def attrGet (v : Val F) (name : String) : Except String (Option (Val F)) :=
  match v with
  | .dict items => .ok (get? items name)
  | v => .error s!"AttributeError: '{v.typeName}' object has no attribute 'get'"

/-- `v.items()` -/
def members (v : Val F) : Except String (List (Key F × Val F)) :=
  match v with
  | .dict items => .ok items
  | v => .error s!"AttributeError: '{v.typeName}' object has no attribute 'items'"

/-- `v[name]` -/
def subscript (v : Val F) (name : String) : Except String (Val F) :=
  match v with
  | .dict items =>
      match get? items name with
      | some w => .ok w
      | Option.none => .error s!"KeyError: '{name}'"
  | .list _ => .error "TypeError: list indices must be integers or slices, not str"
  | .str _ => .error "TypeError: string indices must be integers, not 'str'"
  | v => .error s!"TypeError: '{v.typeName}' object is not subscriptable"

/-- The value of a key. -/
def ofKey : Key F → Val F
  | .none => .none
  | .bool b => .bool b
  | .int n => .int n
  | .float x => .float x
  | .str s => .str s

/-- `for t in v` -/
def iter : Val F → Except String (List (Val F))
  | .list vs => .ok vs
  | .dict items => .ok (items.map fun item => ofKey item.1)
  | .str s => .ok (s.map fun c => .str [c])
  | v => .error s!"TypeError: '{v.typeName}' object is not iterable"

/-- It can be looked up in a dictionary. -/
def hashable : Val F → Bool
  | .list _ => false
  | .dict _ => false
  | _ => true

/-- `bool(v)` -/
def truthy : Val PyFloat → Bool
  | .none => false
  | .bool b => b
  | .int n => n ≠ 0
  | .float x => x ≠ .fin 0
  | .str s => s ≠ []
  | .list vs => !vs.isEmpty
  | .dict items => !items.isEmpty

/-- `float(v)` -/
def asFloat (lit : Literals) : Val PyFloat → Except String PyFloat
  | .bool b => .ok (.fin (if b then 1 else 0))
  | .int n =>
      if |n| < floatLimit then .ok (.fin n)
      else .error "OverflowError: int too large to convert to float"
  | .float x => .ok x
  | .str s =>
      match lit.float s with
      | some x => .ok x
      | Option.none => .error "ValueError: could not convert string to float"
  | v =>
      .error (s!"TypeError: float() argument must be a string or a real number, " ++
        s!"not '{v.typeName}'")

/-- `int(v)` -/
def asInt (lit : Literals) : Val PyFloat → Except String ℤ
  | .bool b => .ok (if b then 1 else 0)
  | .int n => .ok n
  | .float (.fin q) => .ok (if 0 ≤ q then ⌊q⌋ else ⌈q⌉)
  | .float (.inf _) => .error "OverflowError: cannot convert float infinity to integer"
  | .float .nan => .error "ValueError: cannot convert float NaN to integer"
  | .str s =>
      match lit.int s with
      | some n => .ok n
      | Option.none => .error "ValueError: invalid literal for int() with base 10"
  | v =>
      .error (s!"TypeError: int() argument must be a string, a bytes-like object or a real " ++
        s!"number, not '{v.typeName}'")

/-- The value in a comparison with a number. -/
def number? : Val PyFloat → Option PyFloat
  | .bool b => some (.fin (if b then 1 else 0))
  | .int n => some (.fin n)
  | .float x => some x
  | _ => Option.none

mutual

/-- `v == w`, of two decoded values: the keys of their objects are texts. -/
def same : Val PyFloat → Val PyFloat → Bool
  | .none, .none => true
  | .str s, .str t => s = t
  | .list vs, .list ws => sameAll vs ws
  | .dict ms, .dict ns => ms.length = ns.length && sameMembers ms ns
  | v, w =>
      match v.number?, w.number? with
      | some x, some y => x = y && x ≠ .nan
      | _, _ => false

def sameAll : List (Val PyFloat) → List (Val PyFloat) → Bool
  | [], [] => true
  | v :: vs, w :: ws => same v w && sameAll vs ws
  | _, _ => false

def sameMembers : List (Key PyFloat × Val PyFloat) → List (Key PyFloat × Val PyFloat) → Bool
  | [], _ => true
  | (.str k, v) :: ms, ns =>
      (match ns.find? fun | (.str s, _) => s = k | _ => false with
        | some n => same v n.2
        | Option.none => false) && sameMembers ms ns
  | _ :: _, _ => false

end

/-! ## Which shapes raise -/

theorem attrGet_eq_ok {v : Val F} {name : String} {r : Option (Val F)} :
    v.attrGet name = .ok r ↔ ∃ items, v = .dict items ∧ r = get? items name := by
  cases v with
  | dict items =>
      constructor
      · intro h
        exact ⟨items, rfl, (Except.ok.inj h).symm⟩
      · rintro ⟨items', h, rfl⟩
        cases h
        rfl
  | _ =>
      refine iff_of_false (fun h => by cases h) ?_
      rintro ⟨items, h, -⟩
      cases h

theorem members_eq_ok {v : Val F} {items : List (Key F × Val F)} :
    v.members = .ok items ↔ v = .dict items := by
  cases v with
  | dict items' =>
      constructor
      · intro h
        rw [Except.ok.inj h]
      · intro h
        cases h
        rfl
  | _ => exact iff_of_false (fun h => by cases h) fun h => by cases h

theorem subscript_eq_ok {v w : Val F} {name : String} :
    v.subscript name = .ok w ↔ ∃ items, v = .dict items ∧ get? items name = some w := by
  cases v with
  | dict items =>
      rw [subscript]
      constructor
      · intro h
        cases hget : get? items name with
        | none =>
            rw [hget] at h
            cases h
        | some u =>
            rw [hget] at h
            cases h
            exact ⟨items, rfl, hget⟩
      · rintro ⟨items', h, hget⟩
        cases h
        rw [hget]
  | _ =>
      refine iff_of_false (fun h => by cases h) ?_
      rintro ⟨items, h, -⟩
      cases h

/-- Keys and characters have no members. -/
theorem not_ok_subscript_ofKey (k : Key F) (name : String) : ¬ Ok ((ofKey k).subscript name) := by
  rintro ⟨w, h⟩
  obtain ⟨items, hv, -⟩ := subscript_eq_ok.mp h
  cases k <;> cases hv

end Val

/-! ## Sums -/

namespace PyFloat

theorem sum_abs_acc (xs : List PyFloat) : ∀ q : ℚ, 0 ≤ q →
    (((xs.map abs).foldl add (fin q)).nonpos = true ↔ q = 0 ∧ ∀ x ∈ xs, x = fin 0) := by
  have hstuck : ∀ (ys : List PyFloat) (z : PyFloat), z = inf false ∨ z = nan →
      ((ys.map abs).foldl add z).nonpos = false := by
    intro ys
    induction ys with
    | nil => rintro z (rfl | rfl) <;> rfl
    | cons y ys ih =>
        intro z hz
        refine ih _ ?_
        rcases hz with rfl | rfl
        · cases y with
          | fin q => exact Or.inl rfl
          | inf n => exact Or.inl rfl
          | nan => exact Or.inr rfl
        · exact Or.inr (by cases y <;> rfl)
  induction xs with
  | nil =>
      intro q hq
      rw [List.map_nil, List.foldl_nil, nonpos, decide_eq_true_eq]
      exact ⟨fun h => ⟨le_antisymm h hq, fun _ hx => absurd hx List.not_mem_nil⟩, fun h => h.1.le⟩
  | cons x xs ih =>
      intro q hq
      rw [List.map_cons, List.foldl_cons, List.forall_mem_cons]
      cases x with
      | fin p =>
          have hsum := add_eq_zero_iff_of_nonneg hq (abs_nonneg p)
          rw [show add (fin q) (abs (fin p)) = fin (q + |p|) from rfl,
            ih _ (add_nonneg hq (abs_nonneg p)), hsum, abs_eq_zero, fin.injEq, and_assoc]
      | inf n =>
          rw [show add (fin q) (abs (inf n)) = inf false from rfl, hstuck xs _ (Or.inl rfl)]
          exact iff_of_false Bool.false_ne_true fun h => by cases h.2.1
      | nan =>
          rw [show add (fin q) (abs nan) = nan from rfl, hstuck xs _ (Or.inr rfl)]
          exact iff_of_false Bool.false_ne_true fun h => by cases h.2.1

/-- A sum of magnitudes is not positive only if each of them is zero. -/
theorem sum_abs_nonpos (xs : List PyFloat) :
    (sum (xs.map abs)).nonpos = true ↔ ∀ x ∈ xs, x = fin 0 := by
  rw [sum, sum_abs_acc xs 0 le_rfl]
  exact and_iff_right rfl

theorem sum_fin (qs : List ℚ) : sum (qs.map fin) = fin qs.sum := by
  have hacc : ∀ (qs : List ℚ) (q : ℚ), (qs.map fin).foldl add (fin q) = fin (q + qs.sum) := by
    intro qs
    induction qs with
    | nil =>
        intro q
        rw [List.sum_nil, add_zero]
        rfl
    | cons p qs ih =>
        intro q
        rw [List.map_cons, List.foldl_cons, List.sum_cons, ← add_assoc]
        exact ih (q + p)
  rw [sum, hacc, zero_add]

/-- Floats as they are spelled exactly, and the three that are no numbers. -/
def exact : Floats PyFloat where
  spell
    | .fin q => Floats.exact.spell q
    | .inf true => .inl .minusInfinity
    | .inf false => .inl .infinity
    | .nan => .inl .nan
  ofNumeral n := .fin (Floats.exact.ofNumeral n)
  ofWord
    | .minusInfinity => .inf true
    | .infinity => .inf false
    | _ => .nan
  less _ _ := false
  arrange ks := List.range ks.length
  arrange_perm _ := List.Perm.refl _
  word := by
    rintro (q | negative | _) w h
    · cases h
    · cases negative with
      | false =>
          cases h
          exact ⟨Or.inr (Or.inl rfl), rfl⟩
      | true =>
          cases h
          exact ⟨Or.inr (Or.inr rfl), rfl⟩
    · cases h
      exact ⟨Or.inl rfl, rfl⟩
  numeral := by
    rintro (q | negative | _) n h
    · exact ⟨(Floats.exact.numeral h).1, congrArg PyFloat.fin (Floats.exact.numeral h).2⟩
    · cases negative <;> cases h
    · cases h

end PyFloat

end JsonText

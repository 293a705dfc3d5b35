/-
# `Base.JsonInOrder` — JSON that is written in the order of its items

`json.dumps` without `sort_keys` compares no keys, so it takes every value, and writes the items
of a dictionary as they stand.  `Val.reread` is what `json.loads` makes of that: texts whose
surrogates are split come back joined, and keys come back as the texts they were written as, where
two that are equal by now are one.
-/
import TreasuryForge.Base.JsonKept

namespace JsonText

variable {F : Type} (fl : Floats F)

mutual

/-- The tree `json.dumps` writes. -/
def Val.tree : Val F → Tree
  | .none => .word .null
  | .bool b => .word (if b then .true else .false)
  | .int n => .num (intNumeral n)
  | .float x => fl.tree x
  | .str s => .str s.units
  | .list vs => .arr (treeAll vs)
  | .dict items => .obj (treeItems items)

def treeAll : List (Val F) → List Tree
  | [] => []
  | v :: vs => v.tree :: treeAll vs

def treeItems : List (Key F × Val F) → List (List CodeUnit × Tree)
  | [] => []
  | (k, v) :: items => (k.units fl, v.tree) :: treeItems items

end

/-- `json.dumps(v)` -/
def dumpsInOrder (y : Style) (v : Val F) : List Char := (v.tree fl).render y

/-! ## What is read of it -/

def Val.reread (v : Val F) : Val F := decode fl (v.tree fl)

def Str.reread (s : Str) : Str := Str.ofUnits s.units

/-- The text a key comes back as. -/
def Key.reread (k : Key F) : Str := Str.ofUnits (k.units fl)

variable {fl}

theorem loads_dumpsInOrder (y : Style) (v : Val F) :
    loads fl (dumpsInOrder fl y v) = some (v.reread fl) := by
  rw [loads, dumpsInOrder, scan_render]
  rfl

@[simp] theorem reread_of (s : String) : (Str.of s).reread = Str.of s :=
  ofUnits_units_ofChars s.toList

@[simp] theorem reread_int (n : ℤ) : (Val.int n : Val F).reread fl = .int n := by
  rw [Val.reread, Val.tree, decode, if_pos (isInteger_intNumeral n), intNumeral, intOf_intText]

@[simp] theorem reread_float (x : F) : (Val.float x).reread fl = .float x := decode_tree x

@[simp] theorem reread_str (s : Str) : (Val.str s : Val F).reread fl = .str s.reread := rfl

@[simp] theorem reread_key (s : Str) : (Key.str s : Key F).reread fl = s.reread := rfl

theorem treeAll_eq (vs : List (Val F)) : treeAll fl vs = vs.map (Val.tree fl) := by
  induction vs with
  | nil => rfl
  | cons v vs ih => rw [treeAll, ih, List.map_cons]

theorem treeItems_eq (items : List (Key F × Val F)) :
    treeItems fl items = items.map fun m => (m.1.units fl, m.2.tree fl) := by
  induction items with
  | nil => rfl
  | cons m items ih =>
      obtain ⟨k, v⟩ := m
      rw [treeItems, ih, List.map_cons]

@[simp] theorem reread_list (vs : List (Val F)) :
    (Val.list vs).reread fl = .list (vs.map (Val.reread fl)) := by
  rw [Val.reread, Val.tree, decode, treeAll_eq, decodeAll_map, List.map_map]
  rfl

theorem reread_dict (items : List (Key F × Val F)) : (Val.dict items).reread fl =
    .dict ((lastWins (items.map fun m => (m.1.reread fl, m.2.reread fl))).map fun m =>
      (.str m.1, m.2)) := by
  rw [Val.reread, Val.tree, decode, treeItems_eq, decodeMembers_map, List.map_map]
  rfl

/-- A record comes back under its names, in its order. -/
theorem reread_fields {ms : List (String × Val F)} (hn : (ms.map Prod.fst).Nodup) :
    (Val.dict (fields ms)).reread fl = .dict (fields (ms.map fun m => (m.1, m.2.reread fl))) := by
  have hnames : ((fields ms).map fun m => (m.1.reread fl, m.2.reread fl)) =
      ms.map fun m => (Str.of m.1, m.2.reread fl) := by
    rw [fields, List.map_map]
    refine List.map_congr_left fun m _ => ?_
    exact congrArg (·, m.2.reread fl) (reread_of m.1)
  rw [reread_dict, hnames, lastWins_of_nodup (nodup_of_names hn _), fields, List.map_map,
    List.map_map]
  rfl

end JsonText

/-
# `Base.JsonKept` — what is left of a value that was written and read

`Val.kept` is a value after `json.dumps` and `json.loads`.  Constants, numbers, texts of
characters and lists of such are `Plain`: they are kept as they are.  A dictionary with the
names of a record (`fields`) and plain values is read with every value under its name
(`loads_fields`), in whatever order they were written.
-/
import TreasuryForge.Base.JsonLines

namespace JsonText

variable {F : Type} (fl : Floats F)

def Val.kept (v : Val F) : Val F := decode fl (written fl v)

def Val.encodable (v : Val F) : Bool := (encode fl v).isSome

variable {fl}

theorem encode_written {v : Val F} (h : v.encodable fl = true) :
    encode fl v = some (written fl v) := by
  obtain ⟨t, ht⟩ := Option.isSome_iff_exists.mp h
  rw [ht, written_eq ht]

theorem loads_of_dumps {y : Style} {v : Val F} {text : List Char} (h : dumps fl y v = some text) :
    loads fl text = some (v.kept fl) := by
  obtain ⟨t, ht, rfl⟩ := Option.map_eq_some_iff.mp h
  rw [loads, scan_render, Val.kept, written_eq ht]
  rfl

variable (fl) in
/-- The value can be written, and is read as itself. -/
structure Val.Plain (v : Val F) : Prop where
  encodable : v.encodable fl = true
  kept : v.kept fl = v

/-! ## Constants, numbers and texts -/

@[simp] theorem decode_tree (x : F) : decode fl (fl.tree x) = .float x := by
  rw [Floats.tree]
  cases hs : fl.spell x with
  | inl w =>
      obtain ⟨hw, hof⟩ := fl.word hs
      rcases hw with rfl | rfl | rfl
      · exact congrArg Val.float hof
      · exact congrArg Val.float hof
      · exact congrArg Val.float hof
  | inr n =>
      obtain ⟨hint, hof⟩ := fl.numeral hs
      simp only [decode, hint, hof]
      rfl

@[simp] theorem plain_none : (Val.none : Val F).Plain fl := ⟨rfl, rfl⟩

@[simp] theorem plain_bool (b : Bool) : (Val.bool b).Plain fl := ⟨rfl, by cases b <;> rfl⟩

@[simp] theorem plain_int (n : ℤ) : (Val.int n).Plain fl := by
  refine ⟨rfl, ?_⟩
  show decode fl (.num (intNumeral n)) = _
  rw [decode, if_pos (isInteger_intNumeral n)]
  exact congrArg Val.int (intOf_intText n)

@[simp] theorem plain_float (x : F) : (Val.float x).Plain fl := ⟨rfl, decode_tree x⟩

@[simp] theorem plain_text (cs : List Char) : (Val.str (Str.ofChars cs) : Val F).Plain fl :=
  ⟨rfl, congrArg Val.str (ofUnits_units_ofChars cs)⟩

/-! ## Lists -/

theorem encodeAll_written {vs : List (Val F)} (h : ∀ v ∈ vs, v.encodable fl = true) :
    encodeAll fl vs = some (vs.map (written fl)) := by
  induction vs with
  | nil => rfl
  | cons v vs ih =>
      obtain ⟨hv, hvs⟩ := List.forall_mem_cons.mp h
      rw [encodeAll, encode_written hv, Option.bind_some, ih hvs]
      rfl

theorem decodeAll_map (ts : List Tree) : decodeAll fl ts = ts.map (decode fl) := by
  induction ts with
  | nil => rfl
  | cons t ts ih => exact congrArg (decode fl t :: ·) ih

theorem plain_list {vs : List (Val F)} (h : ∀ v ∈ vs, v.Plain fl) : (Val.list vs).Plain fl := by
  have hall := encodeAll_written fun v hv => (h v hv).encodable
  refine ⟨by rw [Val.encodable, encode, hall]; rfl, ?_⟩
  rw [Val.kept, written, encode, hall]
  show decode fl (.arr _) = _
  rw [decode, decodeAll_map, List.map_map]
  exact congrArg Val.list ((List.map_congr_left fun v hv => (h v hv).kept).trans (List.map_id' vs))

/-! ## Dictionaries with the names of a record -/

/-- The items of a record. -/
def fields (ms : List (String × Val F)) : List (Key F × Val F) :=
  ms.map fun m => (.str (Str.of m.1), m.2)

theorem of_injective : Function.Injective Str.of := fun _ _ h =>
  String.toList_injective (ofChars_injective h)

theorem get?_cons_str (s : Str) (v : Val F) (items : List (Key F × Val F)) (name : String) :
    get? ((.str s, v) :: items) name = if s = Str.of name then some v else get? items name := by
  rw [get?, List.findSome?_cons]
  split
  · next h =>
      dsimp only at h
      split at h
      · next hs => rw [if_pos hs, ← h]
      · cases h
  · next h =>
      dsimp only at h
      split at h
      · cases h
      · next hs =>
          rw [if_neg hs]
          rfl

@[simp] theorem get?_fields (ms : List (String × Val F)) (name : String) :
    get? (fields ms) name = ms.lookup name := by
  induction ms with
  | nil => rfl
  | cons m ms ih =>
      show get? ((.str (Str.of m.1), m.2) :: fields ms) name = _
      rw [get?_cons_str, ih, List.lookup_cons]
      by_cases hname : m.1 = name
      · subst hname
        rw [if_pos rfl, beq_self_eq_true]
      · rw [if_neg fun h => hname (of_injective h), beq_false_of_ne (Ne.symm hname)]

/-- Where no name comes twice, a name stands for the one item it is in. -/
theorem get?_eq_some_iff {ms : List (Str × Val F)} (hn : (ms.map Prod.fst).Nodup) {name : String}
    {v : Val F} : get? (ms.map fun m => (Key.str m.1, m.2)) name = some v ↔
      (Str.of name, v) ∈ ms := by
  induction ms with
  | nil => exact ⟨fun h => (nomatch h), fun h => absurd h List.not_mem_nil⟩
  | cons m ms ih =>
      obtain ⟨hnot, hn⟩ := List.nodup_cons.mp hn
      rw [List.map_cons, get?_cons_str, List.mem_cons]
      split
      · next hs =>
          rw [← hs]
          refine ⟨fun h => Or.inl (by rw [← Option.some.inj h]), fun h => ?_⟩
          rcases h with h | h
          · rw [← h]
          · exact absurd (List.mem_map_of_mem h) hnot
      · next hs =>
          rw [ih hn]
          exact ⟨Or.inr, fun h => h.resolve_left fun he => hs (by rw [← he])⟩

theorem get?_perm {ms ns : List (Str × Val F)} (hp : ms.Perm ns) (hn : (ms.map Prod.fst).Nodup)
    (name : String) : get? (ms.map fun m => (Key.str m.1, m.2)) name =
      get? (ns.map fun m => (Key.str m.1, m.2)) name := by
  have hn' : (ns.map Prod.fst).Nodup := (hp.map Prod.fst).nodup_iff.mp hn
  refine Option.ext ?_
  intro v
  rw [get?_eq_some_iff hn, get?_eq_some_iff hn', hp.mem_iff]

theorem decodeMembers_map (ms : List (List CodeUnit × Tree)) :
    decodeMembers fl ms = ms.map fun m => (Str.ofUnits m.1, decode fl m.2) := by
  induction ms with
  | nil => rfl
  | cons m ms ih => exact congrArg (_ :: ·) ih

section Record
variable {ms : List (String × Val F)}

theorem encode_fields (he : ∀ m ∈ ms, m.2.encodable fl = true) :
    encode fl (.dict (fields ms)) = some (.obj
      ((sortMembers (ms.map fun m => (Str.of m.1, written fl m.2))).map fun m =>
        (m.1.units, m.2))) := by
  let named : List (Str × Val F) := ms.map fun m => (Str.of m.1, m.2)
  have hitems : fields ms = named.map fun m => (.str m.1, m.2) := by
    rw [List.map_map]
    rfl
  have hwritten : (named.map fun m => (Key.str (F := F) m.1, written fl m.2)) =
      (ms.map fun m => (Str.of m.1, written fl m.2)).map fun m => (Key.str m.1, m.2) := by
    rw [List.map_map, List.map_map]
    rfl
  have hall : ∀ m ∈ named, (encode fl m.2).isSome = true := List.forall_mem_map.mpr he
  rw [encode, hitems, encodeItems_str fl hall, Option.bind_some, hwritten, sortItems_str,
    Option.map_some, List.map_map]
  rfl

theorem nodup_of_names (hn : (ms.map Prod.fst).Nodup) (f : Val F → Val F) :
    ((ms.map fun m => (Str.of m.1, f m.2)).map Prod.fst).Nodup := by
  have hcomp : (Prod.fst ∘ fun m : String × Val F => (Str.of m.1, f m.2)) = Str.of ∘ Prod.fst := rfl
  rw [List.map_map, hcomp, ← List.map_map]
  exact (List.nodup_map_iff of_injective).mpr hn

theorem kept_fields (hn : (ms.map Prod.fst).Nodup) (he : ∀ m ∈ ms, m.2.encodable fl = true) :
    (Val.dict (fields ms)).kept fl =
      .dict ((sortMembers (ms.map fun m => (Str.of m.1, m.2.kept fl))).map fun m =>
        (.str m.1, m.2)) := by
  let kept : List (Str × Val F) := ms.map fun m => (Str.of m.1, m.2.kept fl)
  have hdec : decodeMembers fl ((sortMembers (ms.map fun m => (Str.of m.1, written fl m.2))).map
      fun m => (m.1.units, m.2)) = sortMembers kept := by
    rw [decodeMembers_map, List.map_map]
    calc (sortMembers (ms.map fun m => (Str.of m.1, written fl m.2))).map
          (fun m => (Str.ofUnits m.1.units, decode fl m.2))
        = (sortMembers (ms.map fun m => (Str.of m.1, written fl m.2))).map
          (fun m => (m.1, decode fl m.2)) := by
          refine List.map_congr_left ?_
          intro m hm
          obtain ⟨m', -, rfl⟩ := List.mem_map.mp ((perm_sortMembers _).subset hm)
          rw [Str.of, ofUnits_units_ofChars]
      _ = sortMembers kept := by
          rw [map_sortMembers, List.map_map]
          rfl
  have hnodup : ((sortMembers kept).map Prod.fst).Nodup :=
    ((perm_sortMembers kept).map Prod.fst).nodup_iff.mpr (nodup_of_names hn _)
  rw [Val.kept, written_eq (encode_fields he), decode, hdec, lastWins_of_nodup hnodup]

/-- Every item is there, under its name, and kept as its value is. -/
theorem get?_kept (hn : (ms.map Prod.fst).Nodup) (he : ∀ m ∈ ms, m.2.encodable fl = true) :
    ∃ rec, (Val.dict (fields ms)).kept fl = .dict rec ∧
      ∀ name, get? rec name = (ms.lookup name).map (Val.kept fl) := by
  refine ⟨_, kept_fields hn he, ?_⟩
  intro name
  have hlookup : (ms.map fun m => (m.1, m.2.kept fl)).lookup name =
      (ms.lookup name).map (Val.kept fl) := by
    clear hn he
    induction ms with
    | nil => rfl
    | cons m ms ih =>
        rw [List.map_cons, List.lookup_cons, List.lookup_cons, ih]
        split <;> rfl
  rw [get?_perm (perm_sortMembers _)
      (((perm_sortMembers _).map Prod.fst).nodup_iff.mpr (nodup_of_names hn _)),
    ← hlookup, ← get?_fields, fields, List.map_map, List.map_map]
  rfl

theorem encodable_fields (he : ∀ m ∈ ms, m.2.encodable fl = true) :
    (Val.dict (fields ms)).encodable fl = true := by
  rw [Val.encodable, encode_fields he]
  rfl

/-- A record of plain values has them all under their names when it is read. -/
theorem kept_record (hn : (ms.map Prod.fst).Nodup) (hp : ∀ m ∈ ms, m.2.Plain fl) :
    ∃ rec, (Val.dict (fields ms)).kept fl = .dict rec ∧ ∀ name, get? rec name = ms.lookup name := by
  obtain ⟨rec, hkept, hget⟩ := get?_kept hn fun m hm => (hp m hm).encodable
  refine ⟨rec, hkept, ?_⟩
  intro name
  rw [hget]
  cases hl : ms.lookup name with
  | none => rfl
  | some v =>
      obtain ⟨l₁, l₂, hms, -⟩ := List.lookup_eq_some_iff.mp hl
      exact congrArg some (hp (name, v) (by rw [hms]; simp)).kept

theorem dumps_fields (y : Style) (hp : ∀ m ∈ ms, m.2.Plain fl) :
    ∃ text, dumps fl y (.dict (fields ms)) = some text := by
  refine ⟨(written fl (.dict (fields ms))).render y, ?_⟩
  rw [dumps, encode_written (encodable_fields fun m hm => (hp m hm).encodable)]
  rfl

theorem loads_fields (y : Style) (hn : (ms.map Prod.fst).Nodup) (hp : ∀ m ∈ ms, m.2.Plain fl) :
    ∃ rec, (dumps fl y (.dict (fields ms))).bind (loads fl) = some (.dict rec) ∧
      ∀ name, get? rec name = ms.lookup name := by
  obtain ⟨rec, hkept, hget⟩ := kept_record hn hp
  obtain ⟨text, htext⟩ := dumps_fields y hp
  exact ⟨rec, by rw [htext, Option.bind_some, loads_of_dumps htext, hkept], hget⟩

end Record

end JsonText

/-
# `Base.Dict` — insertion-ordered dictionaries with distinct keys

A dictionary is a list of key/value pairs with no key twice.  The distinctness
is a field, so `get?` is determined by membership (`get?_eq_some`) and every
operation below has to show that it keeps it.  `set` overwrites in place and
appends a new key at the end, which is the order an insertion-ordered
dictionary shows when it is iterated.

`traverse` decodes every value and fails when one does; `sortKeys` is the order
a dictionary comes back in after a serialiser that sorts its keys.
-/
import Mathlib.Data.List.Sort
import Mathlib.Data.List.Nodup
import Mathlib.Algebra.BigOperators.Group.List.Basic
import Mathlib.Tactic.Abel

/-- An insertion-ordered dictionary. -/
structure Dict (K V : Type) where
  items : List (K × V)
  nodup : (items.map Prod.fst).Nodup

namespace Dict

variable {K V W : Type}

/-! ## Raw association lists -/

/-- Overwrite the entry of `k`, or append one. -/
def setRaw [DecidableEq K] (k : K) (v : V) : List (K × V) → List (K × V)
  | [] => [(k, v)]
  | (k', v') :: l => if k' = k then (k, v) :: l else (k', v') :: setRaw k v l

/-- Decode every value, or fail. -/
def traverseRaw (f : V → Option W) : List (K × V) → Option (List (K × W))
  | [] => some []
  | (k, v) :: l =>
      match f v, traverseRaw f l with
      | some w, some l' => some ((k, w) :: l')
      | _, _ => none

theorem keys_setRaw [DecidableEq K] (k : K) (v : V) (l : List (K × V)) :
    (setRaw k v l).map Prod.fst =
      if k ∈ l.map Prod.fst then l.map Prod.fst else l.map Prod.fst ++ [k] := by
  induction l with
  | nil => simp [setRaw]
  | cons p l ih =>
      obtain ⟨k', v'⟩ := p
      by_cases h : k' = k
      · subst h; simp [setRaw]
      · have hk : k ≠ k' := fun e => h e.symm
        simp only [setRaw, if_neg h, List.map_cons, ih, List.mem_cons, hk, false_or]
        split <;> rfl

theorem nodup_setRaw [DecidableEq K] (k : K) (v : V) {l : List (K × V)}
    (hl : (l.map Prod.fst).Nodup) : ((setRaw k v l).map Prod.fst).Nodup := by
  rw [keys_setRaw]
  by_cases h : k ∈ l.map Prod.fst
  · rw [if_pos h]; exact hl
  · rw [if_neg h, List.nodup_append]
    refine ⟨hl, List.nodup_singleton k, ?_⟩
    intro a ha b hb e
    rw [List.mem_singleton] at hb
    subst hb; subst e
    exact h ha

theorem mem_setRaw [DecidableEq K] {k : K} {v : V} {l : List (K × V)}
    (hl : (l.map Prod.fst).Nodup) {p : K × V} :
    p ∈ setRaw k v l ↔ p = (k, v) ∨ (p ∈ l ∧ p.1 ≠ k) := by
  induction l with
  | nil => simp [setRaw]
  | cons q l ih =>
      obtain ⟨k', v'⟩ := q
      obtain ⟨hnot, hrest⟩ := List.nodup_cons.mp hl
      by_cases h : k' = k
      · subst h
        have hfst : ∀ p ∈ l, p.1 ≠ k' := fun p hp e =>
          hnot (List.mem_map.mpr ⟨p, hp, e⟩)
        simp only [setRaw, if_true, List.mem_cons]
        constructor
        · rintro (rfl | hp)
          · exact Or.inl rfl
          · exact Or.inr ⟨Or.inr hp, hfst p hp⟩
        · rintro (rfl | ⟨rfl | hp, hne⟩)
          · exact Or.inl rfl
          · exact absurd rfl hne
          · exact Or.inr hp
      · simp only [setRaw, if_neg h, List.mem_cons, ih hrest]
        constructor
        · rintro (rfl | rfl | ⟨hp, hne⟩)
          · exact Or.inr ⟨Or.inl rfl, h⟩
          · exact Or.inl rfl
          · exact Or.inr ⟨Or.inr hp, hne⟩
        · rintro (rfl | ⟨rfl | hp, hne⟩)
          · exact Or.inr (Or.inl rfl)
          · exact Or.inl rfl
          · exact Or.inr (Or.inr ⟨hp, hne⟩)

theorem keys_traverseRaw {f : V → Option W} :
    ∀ {l : List (K × V)} {l' : List (K × W)}, traverseRaw f l = some l' →
      l'.map Prod.fst = l.map Prod.fst
  | [], l', h => by
      simp only [traverseRaw, Option.some.injEq] at h
      subst h; rfl
  | (k, v) :: l, l', h => by
      unfold traverseRaw at h
      cases hf : f v with
      | none => simp [hf] at h
      | some w =>
        cases ht : traverseRaw f l with
        | none => simp [hf, ht] at h
        | some t =>
          simp only [hf, ht, Option.some.injEq] at h
          subst h
          simp [keys_traverseRaw ht]

/-! ## Operations -/

def empty : Dict K V := ⟨[], List.nodup_nil⟩

instance : Inhabited (Dict K V) := ⟨empty⟩

def keys (d : Dict K V) : List K := d.items.map Prod.fst

def values (d : Dict K V) : List V := d.items.map Prod.snd

def get? [DecidableEq K] (d : Dict K V) (k : K) : Option V :=
  (d.items.find? (fun p => p.1 = k)).map Prod.snd

def getD [DecidableEq K] (d : Dict K V) (k : K) (v : V) : V := (d.get? k).getD v

def set [DecidableEq K] (d : Dict K V) (k : K) (v : V) : Dict K V :=
  ⟨setRaw k v d.items, nodup_setRaw k v d.nodup⟩

/-- `{k: f(k) for k in ks}` -/
def tabulate [DecidableEq K] (f : K → V) (ks : List K) : Dict K V :=
  ks.foldl (fun d k => d.set k (f k)) empty

/-- `d.setdefault(f(x), []).append(x)` for each `x`. -/
def groupBy [DecidableEq K] {A : Type} (f : A → K) (xs : List A) : Dict K (List A) :=
  xs.foldl (fun d x => d.set (f x) (d.getD (f x) [] ++ [x])) empty

/-- Apply `f` to every value. -/
def mapVals (f : V → W) (d : Dict K V) : Dict K W :=
  ⟨d.items.map (fun p => (p.1, f p.2)), by
    rw [List.map_map]; exact d.nodup⟩

/-- Decode every value, or fail. -/
def traverse (f : V → Option W) (d : Dict K V) : Option (Dict K W) :=
  match h : traverseRaw f d.items with
  | none => none
  | some l => some ⟨l, by rw [keys_traverseRaw h]; exact d.nodup⟩

/-- The entries whose key passes. -/
def filterKeys (p : K → Bool) (d : Dict K V) : Dict K V :=
  ⟨d.items.filter fun e => p e.1, d.nodup.sublist (List.filter_sublist.map Prod.fst)⟩

/-- The entries in ascending key order. -/
def sortKeys (le : K → K → Prop) [DecidableRel le] (d : Dict K V) : Dict K V :=
  ⟨d.items.insertionSort (fun p q => le p.1 q.1),
    ((List.perm_insertionSort _ d.items).map Prod.fst).nodup_iff.mpr d.nodup⟩

/-! ## Lookup -/

section Lookup
variable [DecidableEq K]

theorem get?_eq_some {d : Dict K V} {k : K} {v : V} :
    d.get? k = some v ↔ (k, v) ∈ d.items := by
  obtain ⟨l, hl⟩ := d
  simp only [get?]
  induction l with
  | nil => simp
  | cons p l ih =>
      obtain ⟨k', v'⟩ := p
      obtain ⟨hnot, hrest⟩ := List.nodup_cons.mp hl
      by_cases h : k' = k
      · subst h
        have hmem : (k', v) ∉ l := fun hm => hnot (List.mem_map.mpr ⟨_, hm, rfl⟩)
        simp [hmem, eq_comm]
      · have hk : k ≠ k' := fun e => h e.symm
        simp only [List.find?_cons, h, decide_false, ih hrest, List.mem_cons, Prod.mk.injEq, hk,
          false_and, false_or]

theorem get?_eq_none {d : Dict K V} {k : K} : d.get? k = none ↔ k ∉ d.keys := by
  constructor
  · intro h hk
    obtain ⟨⟨k', v⟩, hp, rfl⟩ := List.mem_map.mp hk
    rw [get?_eq_some.mpr hp] at h
    cases h
  · intro h
    cases hg : d.get? k with
    | none => rfl
    | some v => exact absurd (List.mem_map_of_mem (get?_eq_some.mp hg)) h

@[simp] theorem get?_empty (k : K) : (empty : Dict K V).get? k = none := rfl

@[simp] theorem get?_set_self (d : Dict K V) (k : K) (v : V) : (d.set k v).get? k = some v :=
  get?_eq_some.mpr ((mem_setRaw d.nodup).mpr (Or.inl rfl))

theorem get?_set_of_ne (d : Dict K V) {k k' : K} (v : V) (h : k' ≠ k) :
    (d.set k v).get? k' = d.get? k' := by
  have key : ∀ u, (d.set k v).get? k' = some u ↔ d.get? k' = some u := by
    intro u
    rw [get?_eq_some, get?_eq_some]
    show (k', u) ∈ setRaw k v d.items ↔ _
    rw [mem_setRaw d.nodup]
    constructor
    · rintro (he | ⟨hm, _⟩)
      · exact absurd (congrArg Prod.fst he) h
      · exact hm
    · intro hm; exact Or.inr ⟨hm, h⟩
  cases hg : d.get? k' with
  | some u => exact (key u).mpr hg
  | none =>
      cases hs : (d.set k v).get? k' with
      | none => rfl
      | some u => rw [(key u).mp hs] at hg; cases hg

theorem get?_set (d : Dict K V) (k k' : K) (v : V) :
    (d.set k v).get? k' = if k' = k then some v else d.get? k' := by
  by_cases h : k' = k
  · subst h; simp
  · rw [if_neg h, get?_set_of_ne d v h]

theorem getD_set (d : Dict K V) (k k' : K) (v v₀ : V) :
    (d.set k v).getD k' v₀ = if k' = k then v else d.getD k' v₀ := by
  simp only [getD, get?_set]
  split <;> rfl

/-- What holds of the default and of every entry holds of a lookup. -/
theorem getD_of_all {P : V → Prop} {d : Dict K V} {v₀ : V} (h₀ : P v₀) (h : ∀ p ∈ d.items, P p.2)
    (k : K) : P (d.getD k v₀) := by
  simp only [getD]
  cases hg : d.get? k with
  | none => exact h₀
  | some v => exact h _ (get?_eq_some.mp hg)

theorem get?_congr {d d' : Dict K V} (h : d.items.Perm d'.items) (k : K) :
    d.get? k = d'.get? k := by
  cases hg : d.get? k with
  | some v => exact (get?_eq_some.mpr (h.mem_iff.mp (get?_eq_some.mp hg))).symm
  | none =>
      refine (get?_eq_none.mpr fun hk => get?_eq_none.mp hg ?_).symm
      exact (h.map Prod.fst).mem_iff.mpr hk

@[simp] theorem get?_sortKeys (le : K → K → Prop) [DecidableRel le] (d : Dict K V) (k : K) :
    (d.sortKeys le).get? k = d.get? k :=
  get?_congr (List.perm_insertionSort _ _) k

@[simp] theorem get?_mapVals (f : V → W) (d : Dict K V) (k : K) :
    (d.mapVals f).get? k = (d.get? k).map f := by
  obtain ⟨l, hl⟩ := d
  simp only [get?, mapVals]
  clear hl
  induction l with
  | nil => rfl
  | cons p l ih =>
      by_cases h : p.1 = k
      · simp [h]
      · simpa [h] using ih

theorem get?_filterKeys (p : K → Bool) (d : Dict K V) (k : K) :
    (d.filterKeys p).get? k = if p k = true then d.get? k else none := by
  have hmem : ∀ v, (d.filterKeys p).get? k = some v ↔ d.get? k = some v ∧ p k = true := by
    intro v
    rw [get?_eq_some, get?_eq_some]
    exact List.mem_filter
  by_cases hp : p k = true
  · rw [if_pos hp]
    exact Option.ext fun v => (hmem v).trans (and_iff_left hp)
  · rw [if_neg hp]
    exact Option.eq_none_iff_forall_ne_some.mpr fun v hv => hp ((hmem v).mp hv).2

/-- Entries written over a dictionary one after the other. -/
theorem get?_foldl_set {l : List (K × V)} (hl : (l.map Prod.fst).Nodup) (d : Dict K V) (k : K) :
    (l.foldl (fun d p => d.set p.1 p.2) d).get? k =
      (Option.map Prod.snd (l.find? fun p => p.1 = k)).or (d.get? k) := by
  induction l generalizing d with
  | nil => rfl
  | cons p l ih =>
      obtain ⟨k', v⟩ := p
      obtain ⟨hnot, hrest⟩ := List.nodup_cons.mp hl
      rw [List.foldl_cons, ih hrest, get?_set]
      by_cases hk : k' = k
      · subst hk
        have hnone : l.find? (fun p => p.1 = k') = none := by
          refine List.find?_eq_none.mpr fun p hp he => ?_
          exact hnot (List.mem_map.mpr ⟨p, hp, of_decide_eq_true he⟩)
        simp [hnone]
      · simp [hk, Ne.symm hk]

/-- Rows written under keys of their own. -/
theorem get?_foldl_rows {R : Type} {key : R → K} (val : R → V) {rows : List R}
    (hkeys : (rows.map key).Nodup) (d : Dict K V) :
    (∀ row ∈ rows, (rows.foldl (fun d r => d.set (key r) (val r)) d).get? (key row) =
      some (val row)) ∧
    ∀ k ∉ rows.map key, (rows.foldl (fun d r => d.set (key r) (val r)) d).get? k = d.get? k := by
  induction rows generalizing d with
  | nil => exact ⟨fun row hrow => absurd hrow List.not_mem_nil, fun k _ => rfl⟩
  | cons row rows ih =>
      obtain ⟨hnew, hrest⟩ := List.nodup_cons.mp hkeys
      obtain ⟨hwritten, hkept⟩ := ih hrest (d.set (key row) (val row))
      refine ⟨fun row' hrow' => ?_, fun k hk => ?_⟩
      · rcases List.mem_cons.mp hrow' with rfl | hlater
        · exact (hkept _ hnew).trans (get?_set_self d _ _)
        · exact hwritten row' hlater
      · obtain ⟨hne, hk⟩ := not_or.mp (mt List.mem_cons.mpr hk)
        exact (hkept k hk).trans (get?_set_of_ne d (val row) hne)

theorem get?_foldl_tabulate (f : K → V) (ks : List K) (d : Dict K V) (k : K) :
    (ks.foldl (fun d k => d.set k (f k)) d).get? k = if k ∈ ks then some (f k) else d.get? k := by
  induction ks generalizing d with
  | nil => rfl
  | cons k' ks ih =>
      rw [List.foldl_cons, ih, get?_set]
      by_cases hmem : k ∈ ks
      · rw [if_pos hmem, if_pos (List.mem_cons_of_mem k' hmem)]
      · rw [if_neg hmem]
        by_cases hk : k = k'
        · subst hk
          rw [if_pos rfl, if_pos List.mem_cons_self]
        · rw [if_neg hk, if_neg fun h => (List.mem_cons.mp h).elim hk hmem]

theorem get?_tabulate (f : K → V) {ks : List K} {k : K} (h : k ∈ ks) :
    (tabulate f ks).get? k = some (f k) := by
  rw [tabulate, get?_foldl_tabulate, if_pos h]

theorem getD_foldl_groupBy {A : Type} (f : A → K) (xs : List A) (d : Dict K (List A)) (k : K) :
    (xs.foldl (fun d x => d.set (f x) (d.getD (f x) [] ++ [x])) d).getD k [] =
      d.getD k [] ++ xs.filter fun x => f x = k := by
  induction xs generalizing d with
  | nil => exact (List.append_nil _).symm
  | cons x xs ih =>
      rw [List.foldl_cons, ih, getD_set, List.filter_cons]
      by_cases hk : k = f x
      · subst hk
        rw [if_pos rfl, if_pos (decide_eq_true rfl), List.append_assoc, List.singleton_append]
      · rw [if_neg hk, if_neg (by rw [decide_eq_true_eq]; exact Ne.symm hk)]

theorem mem_keys_set {d : Dict K V} {k k' : K} {v : V} :
    k' ∈ (d.set k v).keys ↔ k' = k ∨ k' ∈ d.keys := by
  have hkeys : ∀ (e : Dict K V), k' ∈ e.keys ↔ e.get? k' ≠ none := by
    intro e
    rw [Ne, get?_eq_none, not_not]
  rw [hkeys, hkeys, get?_set]
  by_cases hk : k' = k
  · rw [if_pos hk]
    exact iff_of_true (Option.some_ne_none v) (Or.inl hk)
  · rw [if_neg hk, or_iff_right hk]

theorem mem_keys_foldl_groupBy {A : Type} (f : A → K) (xs : List A) (d : Dict K (List A)) (k : K) :
    k ∈ (xs.foldl (fun d x => d.set (f x) (d.getD (f x) [] ++ [x])) d).keys ↔
      k ∈ d.keys ∨ ∃ x ∈ xs, f x = k := by
  induction xs generalizing d with
  | nil =>
      constructor
      · exact Or.inl
      · rintro (hk | ⟨x, hx, -⟩)
        · exact hk
        · cases hx
  | cons x xs ih =>
      rw [List.foldl_cons, ih, mem_keys_set]
      constructor
      · rintro ((rfl | hk) | ⟨y, hy, rfl⟩)
        · exact Or.inr ⟨x, List.mem_cons_self, rfl⟩
        · exact Or.inl hk
        · exact Or.inr ⟨y, List.mem_cons_of_mem x hy, rfl⟩
      · rintro (hk | ⟨y, hy, rfl⟩)
        · exact Or.inl (Or.inr hk)
        · rcases List.mem_cons.mp hy with rfl | hy
          · exact Or.inl (Or.inl rfl)
          · exact Or.inr ⟨y, hy, rfl⟩

/-- A group is what belongs to its key, in order. -/
theorem mem_groupBy {A : Type} {f : A → K} {xs : List A} {k : K} {group : List A}
    (h : (k, group) ∈ (groupBy f xs).items) : group = xs.filter fun x => f x = k := by
  have hget : (groupBy f xs).getD k [] = group := by
    rw [getD, get?_eq_some.mpr h]
    rfl
  rw [← hget, groupBy, getD_foldl_groupBy]
  exact List.nil_append _

theorem mem_keys_groupBy {A : Type} {f : A → K} {xs : List A} {k : K} :
    k ∈ (groupBy f xs).keys ↔ ∃ x ∈ xs, f x = k := by
  rw [groupBy, mem_keys_foldl_groupBy]
  exact or_iff_right List.not_mem_nil

end Lookup

/-! ## Sums over the entries -/

theorem sum_setRaw [DecidableEq K] {M : Type} [AddCommGroup M] (f : K × V → M) (k : K) (v : V)
    (l : List (K × V)) :
    ((setRaw k v l).map f).sum = (l.map f).sum + f (k, v) -
      (((l.find? fun p => p.1 = k).map f).getD 0) := by
  induction l with
  | nil => simp [setRaw]
  | cons p l ih =>
      obtain ⟨k', v'⟩ := p
      by_cases h : k' = k
      · subst h
        simp only [setRaw, if_true, List.map_cons, List.sum_cons, List.find?_cons, decide_true,
          Option.map_some, Option.getD_some]
        abel
      · have hs : setRaw k v ((k', v') :: l) = (k', v') :: setRaw k v l := if_neg h
        have hf : ((k', v') :: l).find? (fun p => p.1 = k) = l.find? (fun p => p.1 = k) := by
          simp [h]
        rw [hs, hf, List.map_cons, List.sum_cons, ih, List.map_cons, List.sum_cons]
        abel

/-- Overwriting one entry changes a sum over the entries by that entry alone. -/
theorem sum_set [DecidableEq K] {M : Type} [AddCommGroup M] (d : Dict K V) (f : K → V → M) (k : K)
    (v : V) : ((d.set k v).items.map fun p => f p.1 p.2).sum =
      (d.items.map fun p => f p.1 p.2).sum + f k v - ((d.get? k).map (f k)).getD 0 := by
  have h := sum_setRaw (fun p : K × V => f p.1 p.2) k v d.items
  have hg : (d.items.find? fun p => p.1 = k).map (fun p => f p.1 p.2) = (d.get? k).map (f k) := by
    unfold get?
    cases hf : d.items.find? (fun p => p.1 = k) with
    | none => rfl
    | some p =>
        have hk : p.1 = k := by simpa using List.find?_some hf
        simp [hk]
  rw [hg] at h
  exact h

/-! ## Decoding -/

/-- Looking a key up after decoding every value. -/
theorem get?_traverse [DecidableEq K] {f : V → Option W} {d : Dict K V} {d' : Dict K W}
    (h : d.traverse f = some d') (k : K) : d'.get? k = (d.get? k).bind f := by
  have hraw : traverseRaw f d.items = some d'.items := by
    unfold traverse at h
    split at h
    · cases h
    · next l hl => cases h; exact hl
  unfold get?
  generalize d.items = l at hraw ⊢
  generalize d'.items = l' at hraw ⊢
  induction l generalizing l' with
  | nil => cases hraw; rfl
  | cons p l ih =>
      obtain ⟨k', v⟩ := p
      unfold traverseRaw at hraw
      cases hf : f v with
      | none => simp [hf] at hraw
      | some w =>
        cases ht : traverseRaw f l with
        | none => simp [hf, ht] at hraw
        | some t =>
          simp only [hf, ht, Option.some.injEq] at hraw
          subst hraw
          by_cases hk : k' = k
          · simp [hk, hf]
          · simpa [hk] using ih t ht

end Dict

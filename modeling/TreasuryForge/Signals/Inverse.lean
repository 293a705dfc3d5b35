/-
# `Signals.Inverse` — the elimination ends with a two-sided inverse

A list of rows of one length is a matrix (`toMat`), and the list operations are those of matrices.
One column of `_inverse` is a `RowReduce.pivot` (`view_eliminate`), so that the sweep keeps its
rows beside the unit matrix and reduces column after column (`Swept`).
-/
import TreasuryForge.Base.Loop
import TreasuryForge.Base.RowReduce
import TreasuryForge.Signals.Linalg
import Mathlib.Data.List.GetD

namespace TreasuryForge

namespace Signals

variable {K : Type} {n m p : ℕ}

/-! ## Lists of rows as matrices -/

/-- So many rows of one length. -/
structure IsMatrix (n m : ℕ) (A : Matrix K) : Prop where
  rows : A.length = n
  cols : ∀ row ∈ A, row.length = m

namespace IsMatrix

variable {A : Matrix K}

theorem length_row (h : IsMatrix n m A) {i : ℕ} (hi : i < n) : (A.getD i []).length = m := by
  have hlt : i < A.length := hi.trans_eq h.rows.symm
  rw [List.getD_eq_getElem _ _ hlt]
  exact h.cols _ (List.getElem_mem hlt)

theorem width (h : IsMatrix n m A) (hn : 0 < n) : (A.headD []).length = m := by
  cases A with
  | nil => exact absurd (h.rows.symm ▸ hn) (lt_irrefl 0)
  | cons row A => exact h.cols row List.mem_cons_self

theorem shortest (h : IsMatrix n m A) (hn : 0 < n) : (A.map List.length).min?.getD 0 = m := by
  have hconst : A.map List.length = List.replicate n m :=
    List.eq_replicate_iff.mpr ⟨by rw [List.length_map, h.rows], by simpa using h.cols⟩
  rw [hconst, List.min?_replicate_of_pos hn, Option.getD_some]

end IsMatrix

theorem IsMatrix.set {A : Matrix K} (h : IsMatrix n m A) (r : ℕ) {row : List K}
    (hrow : row.length = m) : IsMatrix n m (A.set r row) := by
  refine ⟨by rw [List.length_set, h.rows], fun row' hrow' => ?_⟩
  rcases List.mem_or_eq_of_mem_set hrow' with hold | rfl
  · exact h.cols row' hold
  · exact hrow

theorem getD_set {A : Matrix K} {r : ℕ} (hr : r < A.length) (row : List K) (i : ℕ) :
    (A.set r row).getD i [] = if i = r then row else A.getD i [] := by
  by_cases hi : i = r
  · subst hi
    simp [List.getD_eq_getElem?_getD, hr]
  · simp [List.getD_eq_getElem?_getD, List.getElem?_set_ne (Ne.symm hi), hi]

theorem isMatrix_of_range {f : ℕ → ℕ → K} :
    IsMatrix n m ((List.range n).map fun i => (List.range m).map fun j => f i j) := by
  refine ⟨by simp, fun row hrow => ?_⟩
  obtain ⟨i, -, rfl⟩ := List.mem_map.mp hrow
  simp

variable [Field K]

/-- The unit matrix. -/
def identity (n : ℕ) : Matrix K :=
  (List.range n).map fun i => (List.range n).map fun j => if i = j then 1 else 0

def toVec (n : ℕ) (xs : List K) (i : Fin n) : K := xs.getD i 0

def toMat (n m : ℕ) (A : Matrix K) := Matrix.of fun (i : Fin n) (j : Fin m) => entry A i j

theorem dot_eq {xs ys : List K} (hx : xs.length = n) (hy : n ≤ ys.length) :
    dot xs ys = dotProduct (toVec n xs) (toVec n ys) := by
  induction xs generalizing n ys with
  | nil =>
      subst hx
      rfl
  | cons x xs ih =>
      subst hx
      cases ys with
      | nil => simp at hy
      | cons y ys =>
          have hrest := ih rfl (Nat.le_of_succ_le_succ hy)
          rw [dot, List.zipWith_cons_cons, List.sum_cons, ← dot, hrest]
          simp only [dotProduct, List.length_cons, Fin.sum_univ_succ]
          rfl

namespace IsMatrix

variable {A B : Matrix K}

theorem ext (hA : IsMatrix n m A) (hB : IsMatrix n m B)
    (h : ∀ i < n, ∀ j < m, entry A i j = entry B i j) : A = B := by
  refine List.ext_getElem (hA.rows.trans hB.rows.symm) fun i hi hi' => ?_
  have hrow := hA.cols _ (List.getElem_mem hi)
  have hrow' := hB.cols _ (List.getElem_mem hi')
  refine List.ext_getElem (hrow.trans hrow'.symm) fun j hj hj' => ?_
  have hentry := h i (hi.trans_eq hA.rows) j (hj.trans_eq hrow)
  unfold entry at hentry
  rwa [List.getD_eq_getElem _ _ hi, List.getD_eq_getElem _ _ hi', List.getD_eq_getElem _ _ hj,
    List.getD_eq_getElem _ _ hj'] at hentry

theorem ext_toMat (hA : IsMatrix n m A) (hB : IsMatrix n m B) (h : toMat n m A = toMat n m B) :
    A = B :=
  hA.ext hB fun i hi j hj => congrFun (congrFun h ⟨i, hi⟩) ⟨j, hj⟩

theorem toVec_column (h : IsMatrix n m A) (j : ℕ) :
    toVec n (column A j) = fun i : Fin n => entry A i j := by
  funext i
  have hi : (i : ℕ) < A.length := i.isLt.trans_eq h.rows.symm
  simp [toVec, column, entry, List.getD_eq_getElem?_getD, List.getElem?_map,
    List.getElem?_eq_getElem hi]

end IsMatrix

theorem length_column (A : Matrix K) (j : ℕ) : (column A j).length = A.length := List.length_map _

theorem entry_of_range {f : ℕ → ℕ → K} {i j : ℕ} (hi : i < n) (hj : j < m) :
    entry ((List.range n).map fun i => (List.range m).map fun j => f i j) i j = f i j := by
  simp [entry, List.getD_eq_getElem?_getD, hi, hj]

theorem toMat_identity : toMat n n (identity n : Matrix K) = 1 := by
  ext i j
  rw [Matrix.one_apply]
  exact (entry_of_range i.isLt j.isLt).trans (if_congr Fin.val_inj rfl rfl)

section Operations

variable {A B : Matrix K}

theorem isMatrix_matmul (hA : IsMatrix n m A) (hB : IsMatrix m p B) (hm : 0 < m) :
    IsMatrix n p (matmul A B) := by
  refine ⟨by rw [matmul, List.length_map, hA.rows], fun row hrow => ?_⟩
  obtain ⟨a, -, rfl⟩ := List.mem_map.mp hrow
  rw [List.length_map, List.length_range, hB.width hm]

theorem entry_matmul (hA : IsMatrix n m A) (hB : IsMatrix m p B) (hm : 0 < m) {i j : ℕ}
    (hi : i < n) (hj : j < p) : entry (matmul A B) i j = dot (A.getD i []) (column B j) := by
  have hi' : i < A.length := hi.trans_eq hA.rows.symm
  rw [matmul, hB.width hm]
  simp [entry, List.getD_eq_getElem?_getD, List.getElem?_eq_getElem hi', hj]

theorem toMat_matmul (hA : IsMatrix n m A) (hB : IsMatrix m p B) (hm : 0 < m) :
    toMat n p (matmul A B) = toMat n m A * toMat m p B := by
  ext i j
  have hcol : m ≤ (column B j).length := by rw [length_column, hB.rows]
  calc entry (matmul A B) i j
      = dot (A.getD i []) (column B j) := entry_matmul hA hB hm i.isLt j.isLt
    _ = dotProduct (toVec m (A.getD i [])) (toVec m (column B j)) :=
        dot_eq (hA.length_row i.isLt) hcol
    _ = (toMat n m A * toMat m p B) i j := by
        rw [hB.toVec_column]
        rfl

theorem isMatrix_transpose (hA : IsMatrix n m A) (hn : 0 < n) : IsMatrix m n (transpose A) := by
  refine ⟨by rw [transpose, List.length_map, List.length_range, hA.shortest hn], fun row hrow => ?_⟩
  obtain ⟨j, -, rfl⟩ := List.mem_map.mp hrow
  rw [length_column, hA.rows]

theorem row_transpose (hA : IsMatrix n m A) (hn : 0 < n) {j : ℕ} (hj : j < m) :
    (transpose A).getD j [] = column A j := by
  rw [transpose, hA.shortest hn]
  simp [List.getD_eq_getElem?_getD, List.getElem?_map, List.getElem?_range hj]

theorem toMat_transpose (hA : IsMatrix n m A) (hn : 0 < n) :
    toMat m n (transpose A) = (toMat n m A).transpose := by
  ext j i
  calc entry (transpose A) j i
      = toVec n (column A j) i := by rw [entry, row_transpose hA hn j.isLt]; rfl
    _ = (toMat n m A).transpose j i := congrFun (hA.toVec_column j) i

end Operations

/-! ## The sweep -/

/-- The pivot row is brought up and scaled. -/
def raised (M : Matrix K) (col piv : ℕ) : Matrix K :=
  let S := (M.set col (M.getD piv [])).set piv (M.getD col [])
  S.set col ((S.getD col []).map (· / entry S col col))

section Column

variable {M : Matrix K} {col piv w : ℕ}

theorem isMatrix_raised (hM : IsMatrix n w M) (hcol : col < n) (hpiv : piv < n) :
    IsMatrix n w (raised M col piv) := by
  have hswap := (hM.set col (hM.length_row hpiv)).set piv (hM.length_row hcol)
  exact hswap.set col (by rw [List.length_map, hswap.length_row hcol])

theorem entry_raised (hM : IsMatrix n w M) (hcol : col < n) (hpiv : piv < n) (i j : ℕ) :
    entry (raised M col piv) i j =
      if i = col then entry M piv j / entry M piv col
      else entry M (if i = piv then col else i) j := by
  have hset := hM.set col (hM.length_row hpiv)
  have hswap : ∀ i, ((M.set col (M.getD piv [])).set piv (M.getD col [])).getD i [] =
      M.getD (if i = col then piv else if i = piv then col else i) [] := by
    intro i
    rw [getD_set (hpiv.trans_eq hset.rows.symm), getD_set (hcol.trans_eq hM.rows.symm)]
    split_ifs <;> simp_all
  have hlen := (hset.set piv (hM.length_row hcol)).rows
  rw [entry, raised, getD_set (hcol.trans_eq hlen.symm), entry, hswap, hswap]
  by_cases hi : i = col
  · rw [if_pos hi, if_pos hi, if_pos rfl]
    calc ((M.getD piv []).map (· / entry M piv col)).getD j 0
        = ((M.getD piv []).map (· / entry M piv col)).getD j (0 / entry M piv col) := by
          rw [zero_div]
      _ = entry M piv j / entry M piv col := List.getD_map _ 0 (· / entry M piv col)
  · rw [if_neg hi, if_neg hi, if_neg hi]
    rfl

variable [DecidableEq K]

/-- What is left of row `r` when the pivot row is taken off it. -/
def cleared (col : ℕ) (M : Matrix K) (r : ℕ) : List K :=
  if r ≠ col ∧ entry M r col ≠ 0 then
    List.zipWith (fun a b => a - entry M r col * b) (M.getD r []) (M.getD col [])
  else M.getD r []

/-- One round of the inner loop. -/
def clearRow (col : ℕ) (M : Matrix K) (r : ℕ) : Matrix K :=
  if r ≠ col ∧ entry M r col ≠ 0 then
    M.set r (List.zipWith (fun a b => a - entry M r col * b) (M.getD r []) (M.getD col []))
  else M

theorem getD_clearRow (hM : IsMatrix n w M) {r : ℕ} (hr : r < n) (i : ℕ) :
    (clearRow col M r).getD i [] = if i = r then cleared col M r else M.getD i [] := by
  unfold clearRow cleared
  split
  · exact getD_set (hr.trans_eq hM.rows.symm) _ i
  · split
    · next hi => rw [hi]
    · rfl

theorem isMatrix_clearRow (hM : IsMatrix n w M) (hcol : col < n) {r : ℕ} (hr : r < n) :
    IsMatrix n w (clearRow col M r) := by
  unfold clearRow
  split
  · exact hM.set r (by
      rw [List.length_zipWith, hM.length_row hr, hM.length_row hcol, min_self])
  · exact hM

theorem isMatrix_clear (hM : IsMatrix n w M) (hcol : col < n) {l : List ℕ} (hl : ∀ r ∈ l, r < n) :
    IsMatrix n w (l.foldl (clearRow col) M) := by
  induction l generalizing M with
  | nil => exact hM
  | cons r l ih =>
      exact ih (isMatrix_clearRow hM hcol (hl r List.mem_cons_self))
        fun r' hr' => hl r' (List.mem_cons_of_mem r hr')

/-- The loop clears each of its rows by what the rows were before it: none of its rounds changes
the pivot row, or a row that is still to come. -/
theorem getD_clear (hM : IsMatrix n w M) (hcol : col < n) {l : List ℕ} (hnodup : l.Nodup)
    (hl : ∀ r ∈ l, r < n) (i : ℕ) :
    (l.foldl (clearRow col) M).getD i [] = if i ∈ l then cleared col M i else M.getD i [] := by
  induction l generalizing M with
  | nil => rfl
  | cons r l ih =>
      obtain ⟨hfirst, hrest⟩ := List.nodup_cons.mp hnodup
      have hr := hl r List.mem_cons_self
      have hstep : ∀ i, (clearRow col M r).getD i [] =
          if i = r then cleared col M r else M.getD i [] := getD_clearRow hM hr
      rw [List.foldl_cons, ih (isMatrix_clearRow hM hcol hr) hrest
        (fun r' hr' => hl r' (List.mem_cons_of_mem r hr'))]
      by_cases hi : i = r
      · subst hi
        rw [if_neg hfirst, if_pos List.mem_cons_self, hstep, if_pos rfl]
      · have hrow : (clearRow col M r).getD i [] = M.getD i [] := by rw [hstep, if_neg hi]
        have hpivot : (clearRow col M r).getD col [] = M.getD col [] := by
          rw [hstep]
          split
          · next heq => rw [cleared, if_neg (by simp [heq]), heq]
          · rfl
        have hcleared : cleared col (clearRow col M r) i = cleared col M i := by
          unfold cleared entry
          rw [hrow, hpivot]
        rw [hcleared, hrow]
        simp [hi]

theorem entry_cleared (hM : IsMatrix n w M) (hcol : col < n) {i j : ℕ} (hi : i < n) (hj : j < w) :
    (cleared col M i).getD j 0 =
      if i = col then entry M i j else entry M i j - entry M i col * entry M col j := by
  unfold cleared
  by_cases hrow : i = col
  · simp [hrow, entry]
  · rw [if_neg hrow]
    by_cases hzero : entry M i col = 0
    · rw [if_neg fun h => h.2 hzero, hzero, zero_mul, sub_zero]
      rfl
    · have hleft : j < (M.getD i []).length := hj.trans_eq (hM.length_row hi).symm
      have hright : j < (M.getD col []).length := hj.trans_eq (hM.length_row hcol).symm
      rw [if_pos ⟨hrow, hzero⟩]
      unfold entry
      rw [List.getD_eq_getElem _ _ (by simpa using ⟨hleft, hright⟩), List.getElem_zipWith,
        List.getD_eq_getElem _ _ hleft, List.getD_eq_getElem _ _ hright]

end Column

/-! ## The sweep keeps its rows beside the unit matrix -/

/-- Where a column of either half is. -/
def place (n : ℕ) : Fin n ⊕ Fin n → ℕ := Sum.elim (fun j => j) fun j => n + j

theorem place_lt (k : Fin n ⊕ Fin n) : place n k < n + n := by
  rcases k with j | j
  · exact j.isLt.trans_le (Nat.le_add_left n n)
  · exact Nat.add_lt_add_left j.isLt n

/-- The two halves of the rows. -/
def view (n : ℕ) (M : Matrix K) (i : Fin n) (k : Fin n ⊕ Fin n) : K := entry M i (place n k)

/-- After so many columns. -/
structure Swept (n : ℕ) (A : Matrix K) (done : ℕ) (M : Matrix K) : Prop where
  shape : IsMatrix n (n + n) M
  rows : ∀ i, view n M i ∈ RowReduce.beside (toMat n n A)
  reduced : RowReduce.Reduced Sum.inl {j : Fin n | (j : ℕ) < done} (view n M)

/-- `A` beside the unit matrix. -/
def augmented (A : Matrix K) : Matrix K :=
  A.mapIdx fun i row => row ++ (List.range A.length).map fun j => if i = j then 1 else 0

theorem swept_augmented {A : Matrix K} (hA : IsMatrix n n A) : Swept n A 0 (augmented A) := by
  have hshape : IsMatrix n (n + n) (augmented A) := by
    refine ⟨by rw [augmented, List.length_mapIdx, hA.rows], fun row hrow => ?_⟩
    obtain ⟨i, hi, rfl⟩ := List.mem_mapIdx.mp hrow
    simp [hA.rows, hA.cols _ (List.getElem_mem hi)]
  refine ⟨hshape, fun i => ?_, fun j hj => absurd hj (Nat.not_lt_zero _)⟩
  have hview : view n (augmented A) i = Sum.elim (toMat n n A i) (Pi.single i 1) := by
    funext k
    have hi : (i : ℕ) < A.length := i.isLt.trans_eq hA.rows.symm
    have hrow : (augmented A).getD i [] =
        A.getD i [] ++ (List.range n).map fun j => if (i : ℕ) = j then 1 else 0 := by
      simp [augmented, List.getD_eq_getElem?_getD, hA.rows]
    rw [view, entry, hrow]
    rcases k with j | j
    · exact List.getD_append _ _ _ _ (j.isLt.trans_eq (hA.length_row i.isLt).symm)
    · refine (List.getD_append_right _ _ _ _
        ((hA.length_row i.isLt).trans_le (Nat.le_add_right n j))).trans ?_
      rw [hA.length_row i.isLt, Nat.add_sub_cancel_left]
      simp [List.getD_eq_getElem?_getD, Pi.single_apply, Fin.ext_iff, eq_comm]
  rw [hview]
  exact RowReduce.beside_unit (toMat n n A) i

variable [LinearOrder K]

/-- The better of two rows, one after the other, ends with one of the rows. -/
theorem foldl_better_mem (M : Matrix K) (col : ℕ) (l : List ℕ) (best : ℕ) :
    l.foldl (fun best r => if |entry M best col| < |entry M r col| then r else best) best ∈
      best :: l := by
  induction l generalizing best with
  | nil => exact List.mem_cons_self
  | cons r l ih =>
      rw [List.foldl_cons]
      rcases List.mem_cons.mp (ih (if |entry M best col| < |entry M r col| then r else best)) with
        hfirst | hlater
      · rw [hfirst]
        split
        · exact List.mem_cons_of_mem best List.mem_cons_self
        · exact List.mem_cons_self
      · exact List.mem_cons_of_mem best (List.mem_cons_of_mem r hlater)

theorem pivotRow_mem {M : Matrix K} {col : ℕ} (hcol : col < n) :
    col ≤ pivotRow M n col ∧ pivotRow M n col < n := by
  rcases List.mem_cons.mp (foldl_better_mem M col _ col) with hfirst | hlater
  · rw [pivotRow, hfirst]
    exact ⟨le_rfl, hcol⟩
  · obtain ⟨hrange, hlt⟩ := List.mem_filter.mp hlater
    exact ⟨(of_decide_eq_true hlt).le, List.mem_range.mp hrange⟩

variable [IsStrictOrderedRing K]

theorem eliminate_ok {M M' : Matrix K} {col : ℕ} (h : eliminate n M col = .ok M') :
    entry M (pivotRow M n col) col ≠ 0 ∧
      M' = (List.range n).foldl (clearRow col) (raised M col (pivotRow M n col)) := by
  unfold eliminate at h
  dsimp only at h
  split at h
  · cases h
  · next hsmall =>
      refine ⟨fun hzero => hsmall ?_, (Except.ok.inj h).symm⟩
      rw [hzero, abs_zero]
      positivity

/-- One column of the elimination, on the rows as vectors. -/
theorem view_eliminate {M M' : Matrix K} (hM : IsMatrix n (n + n) M) (col : Fin n)
    (h : eliminate n M col = .ok M') :
    IsMatrix n (n + n) M' ∧ ∃ piv : Fin n, (col : ℕ) ≤ piv ∧ view n M piv (.inl col) ≠ 0 ∧
      view n M' = RowReduce.pivot Sum.inl (view n M) col piv := by
  obtain ⟨hne, rfl⟩ := eliminate_ok h
  obtain ⟨hle, hlt⟩ := pivotRow_mem (M := M) col.isLt
  generalize pivotRow M n col = piv at hne hle hlt
  have hraised := isMatrix_raised hM col.isLt hlt
  have hall : ∀ r ∈ List.range n, r < n := fun r => List.mem_range.mp
  refine ⟨isMatrix_clear hraised col.isLt hall, ⟨piv, hlt⟩, hle, hne, ?_⟩
  funext i k
  have hrow : (view n ((List.range n).foldl (clearRow col) (raised M col piv)) i k : K) =
      (cleared col (raised M col piv) i).getD (place n k) 0 := by
    rw [view, entry, getD_clear hraised col.isLt List.nodup_range hall,
      if_pos (List.mem_range.mpr i.isLt)]
  rw [hrow, entry_cleared hraised col.isLt i.isLt (place_lt k)]
  simp only [entry_raised hM col.isLt hlt, if_true]
  by_cases hi : i = col
  · subst hi
    simp [RowReduce.pivot, view, place, div_eq_inv_mul]
  · have hcol : (i : ℕ) ≠ col := fun heq => hi (Fin.ext heq)
    have hswap : Equiv.swap col ⟨piv, hlt⟩ i = if (i : ℕ) = piv then col else i := by
      rw [Equiv.swap_apply_def, if_neg hi]
      exact if_congr Fin.ext_iff rfl rfl
    simp only [if_neg hcol, RowReduce.pivot, if_neg hi, Pi.sub_apply, Pi.smul_apply,
      Function.comp_apply, hswap, Equiv.swap_apply_left, view, apply_ite Fin.val, smul_eq_mul,
      div_eq_inv_mul]
    rfl

theorem Swept.step {A M M' : Matrix K} {col : ℕ} (h : Swept n A col M) (hcol : col < n)
    (helim : eliminate n M col = .ok M') : Swept n A (col + 1) M' := by
  obtain ⟨hshape, piv, hle, hne, hpivot⟩ := view_eliminate h.shape ⟨col, hcol⟩ helim
  refine ⟨hshape, ?_, ?_⟩
  · rw [hpivot]
    exact RowReduce.pivot_mem h.rows _ _
  · have hdone : {j : Fin n | (j : ℕ) < col + 1} =
        insert ⟨col, hcol⟩ {j : Fin n | (j : ℕ) < col} := by
      ext j
      simp only [Set.mem_ofPred_eq, Set.mem_insert_iff, Fin.ext_iff]
      omega
    rw [hdone, hpivot]
    exact h.reduced.pivot (lt_irrefl col) (not_lt.mpr hle) hne

/-- A result of `_inverse` is inverse to the matrix, from either side. -/
theorem inverse_toMat {A R : Matrix K} (hA : IsMatrix n n A) (h : inverse A = .ok R) :
    IsMatrix n n R ∧ toMat n n R * toMat n n A = 1 ∧ toMat n n A * toMat n n R = 1 := by
  obtain ⟨M, hM, hR⟩ := Loop.bind_eq_ok.mp h
  obtain rfl := Except.ok.inj hR
  have hswept : Swept n A (List.range A.length).length M :=
    Loop.foldlM_keeps hM (swept_augmented hA) (by
      intro k col M₁ M₂ hcol hkeeps helim
      obtain ⟨hk, rfl⟩ := List.getElem?_eq_some_iff.mp hcol
      rw [List.length_range, hA.rows] at hk
      rw [List.getElem_range, hA.rows] at helim
      exact hkeeps.step hk helim)
  rw [List.length_range, hA.rows] at hswept
  have hshape : IsMatrix n n (M.map (·.drop A.length)) := by
    refine ⟨by rw [List.length_map, hswept.shape.rows], fun row hrow => ?_⟩
    obtain ⟨row', hrow', rfl⟩ := List.mem_map.mp hrow
    rw [List.length_drop, hswept.shape.cols row' hrow', hA.rows, Nat.add_sub_cancel]
  have hright : toMat n n (M.map (·.drop A.length)) =
      Matrix.of fun i j => view n M i (Sum.inr j) := by
    ext i j
    have hi : (i : ℕ) < M.length := i.isLt.trans_eq hswept.shape.rows.symm
    simp [toMat, entry, view, place, List.getD_eq_getElem?_getD, List.getElem?_eq_getElem hi,
      hA.rows]
  have hreduced : RowReduce.Reduced Sum.inl Set.univ (view n M) :=
    fun j _ => hswept.reduced j j.isLt
  rw [hright]
  exact ⟨hshape, RowReduce.inverse_of_reduced hswept.rows hreduced⟩

end Signals

end TreasuryForge

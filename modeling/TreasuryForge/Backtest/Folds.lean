/-
# `Backtest.Folds` — purged and embargoed cross-validation

The splits of `backtest/cv.py`.  The test folds are the consecutive ranges of `bounds`, and
together they are all samples (`flatten_tests`).  What is purged begins with the test fold and
ends an embargo after it, so the samples right before a fold stay in its training set:
`leakFree_iff` says when none of them is within an embargo of the fold.
-/
import TreasuryForge.Base.Loop
import Mathlib.Algebra.BigOperators.Group.List.Lemmas
import Mathlib.Algebra.Order.BigOperators.Group.List
import Mathlib.Tactic.Linarith

namespace TreasuryForge

namespace Backtest

open Loop

/-- The remainder of the division goes to the first folds, one sample each. -/
def foldSizes (nSamples k : ℤ) : List ℤ :=
  (range 0 k).map fun i => nSamples / k + if i < nSamples % k then 1 else 0

/-- Where each fold starts and ends, from the start of the first one. -/
def bounds (start : ℤ) : List ℤ → List (ℤ × ℤ)
  | [] => []
  | size :: sizes => (start, start + size) :: bounds (start + size) sizes

/-- One fold: its training indices and its test indices. -/
def fold (nSamples embargo : ℤ) (testFold : ℤ × ℤ) : List ℤ × List ℤ :=
  let testIdx := range testFold.1 testFold.2
  let purgeLo := testFold.1
  -- embargo after the test fold
  let purgeHi := min nSamples (testFold.2 + embargo)
  let trainIdx := (range 0 nSamples).filter fun i => i < purgeLo ∨ purgeHi ≤ i
  (trainIdx, testIdx)

/-- What the generator yields, unless its first step raises. -/
def purgedKfold (nSamples : ℤ) (k : ℤ := 5) (embargo : ℤ := 0) :
    Except String (List (List ℤ × List ℤ)) :=
  if k < 2 then .error "k must be >= 2"
  else if nSamples < k then .error "n_samples must be >= k"
  else .ok ((bounds 0 (foldSizes nSamples k)).map (fold nSamples embargo))

/-! ## The bounds -/

/-- A sample each for the first `r` of `m` folds, beside the `q` that every one of them has. -/
theorem sum_sizes (q : ℤ) (r m : ℕ) :
    ((List.range m).map fun i : ℕ => q + if (i : ℤ) < r then 1 else 0).sum = m * q + min m r := by
  induction m with
  | zero => simp
  | succ m ih =>
      rw [List.range_succ, List.map_append, List.sum_append, ih, List.map_singleton,
        List.sum_singleton]
      have hlast : ((min m r : ℕ) : ℤ) + (if (m : ℤ) < r then 1 else 0) = (min (m + 1) r : ℕ) := by
        split <;> omega
      push_cast at hlast ⊢
      linarith

theorem sum_foldSizes (nSamples : ℤ) {k : ℤ} (hk : 0 < k) :
    (foldSizes nSamples k).sum = nSamples := by
  obtain ⟨m, rfl⟩ := Int.eq_ofNat_of_zero_le hk.le
  obtain ⟨r, hr⟩ := Int.eq_ofNat_of_zero_le (Int.emod_nonneg nSamples hk.ne')
  have hlt := Int.emod_lt_of_pos nSamples hk
  have hmin : min m r = r := by omega
  have hrange : range 0 m = (List.range m).map fun i : ℕ => (i : ℤ) := by simp [range]
  rw [foldSizes, hr, hrange, List.map_map]
  refine (sum_sizes (nSamples / m) r m).trans ?_
  rw [hmin, ← hr, Int.mul_ediv_add_emod]

theorem foldSizes_pos {nSamples k : ℤ} (hk : 0 < k) (hn : k ≤ nSamples) :
    ∀ size ∈ foldSizes nSamples k, 0 < size := by
  intro size hsize
  obtain ⟨i, -, rfl⟩ := List.mem_map.mp hsize
  have hdiv : 1 ≤ nSamples / k := Int.le_ediv_of_mul_le hk (by omega)
  split <;> omega

theorem length_bounds (start : ℤ) (sizes : List ℤ) :
    (bounds start sizes).length = sizes.length := by
  induction sizes generalizing start with
  | nil => rfl
  | cons size sizes ih => exact congrArg Nat.succ (ih _)

theorem mem_bounds {sizes : List ℤ} (hpos : ∀ size ∈ sizes, 0 < size) {start : ℤ} {b : ℤ × ℤ}
    (hb : b ∈ bounds start sizes) : start ≤ b.1 ∧ b.1 < b.2 ∧ b.2 ≤ start + sizes.sum := by
  induction sizes generalizing start with
  | nil => exact absurd hb List.not_mem_nil
  | cons size sizes ih =>
      obtain ⟨hsize, hsizes⟩ := List.forall_mem_cons.mp hpos
      have hsum : 0 ≤ sizes.sum := List.sum_nonneg fun s hs => (hsizes s hs).le
      rw [List.sum_cons]
      rcases List.mem_cons.mp hb with rfl | hb
      · dsimp only
        omega
      · obtain ⟨hlo, hlt, hhi⟩ := ih hsizes hb
        omega

/-- The ranges of the folds, one after the other, are one range. -/
theorem flatten_bounds {sizes : List ℤ} (hpos : ∀ size ∈ sizes, 0 < size) (start : ℤ) :
    ((bounds start sizes).map fun b => range b.1 b.2).flatten =
      range start (start + sizes.sum) := by
  induction sizes generalizing start with
  | nil => simp [bounds, range]
  | cons size sizes ih =>
      obtain ⟨hsize, hsizes⟩ := List.forall_mem_cons.mp hpos
      have hsum : 0 ≤ sizes.sum := List.sum_nonneg fun s hs => (hsizes s hs).le
      rw [bounds, List.map_cons, List.flatten_cons, ih hsizes, List.sum_cons, ← add_assoc]
      exact range_append (by omega) (by omega)

/-! ## The folds -/

section Folds

variable {nSamples k embargo : ℤ} {folds : List (List ℤ × List ℤ)}

theorem purgedKfold_ok_iff : purgedKfold nSamples k embargo = .ok folds ↔
    2 ≤ k ∧ k ≤ nSamples ∧
      (bounds 0 (foldSizes nSamples k)).map (fold nSamples embargo) = folds := by
  rw [purgedKfold]
  split
  · next hk => exact iff_of_false (nomatch ·) fun h => absurd h.1 (not_le.mpr hk)
  · next hk =>
      split
      · next hn => exact iff_of_false (nomatch ·) fun h => absurd h.2.1 (not_le.mpr hn)
      · next hn =>
          rw [Except.ok.injEq]
          exact ⟨fun h => ⟨not_lt.mp hk, not_lt.mp hn, h⟩, fun h => h.2.2⟩

/-- No fold is empty, and all of them are among the samples. -/
theorem bounds_within (hk : 2 ≤ k) (hn : k ≤ nSamples) {b : ℤ × ℤ}
    (hb : b ∈ bounds 0 (foldSizes nSamples k)) : 0 ≤ b.1 ∧ b.1 < b.2 ∧ b.2 ≤ nSamples := by
  have hpos : 0 < k := by omega
  obtain ⟨hlo, hlt, hhi⟩ := mem_bounds (foldSizes_pos hpos hn) hb
  rw [sum_foldSizes _ hpos, zero_add] at hhi
  exact ⟨hlo, hlt, hhi⟩

theorem exists_bounds (h : purgedKfold nSamples k embargo = .ok folds) {f : List ℤ × List ℤ}
    (hf : f ∈ folds) : ∃ b, f = fold nSamples embargo b ∧ 0 ≤ b.1 ∧ b.1 < b.2 ∧ b.2 ≤ nSamples := by
  obtain ⟨hk, hn, rfl⟩ := purgedKfold_ok_iff.mp h
  obtain ⟨b, hb, rfl⟩ := List.mem_map.mp hf
  exact ⟨b, rfl, bounds_within hk hn hb⟩

theorem flatten_tests (h : purgedKfold nSamples k embargo = .ok folds) :
    (folds.map Prod.snd).flatten = range 0 nSamples := by
  obtain ⟨hk, hn, rfl⟩ := purgedKfold_ok_iff.mp h
  have hpos : 0 < k := by omega
  rw [List.map_map]
  refine (flatten_bounds (foldSizes_pos hpos hn) 0).trans ?_
  rw [sum_foldSizes _ hpos, zero_add]

/-- Ranges of samples, as many as there are folds, that have every sample once. -/
structure Partition (nSamples k : ℤ) (tests : List (List ℤ)) : Prop where
  length : tests.length = k
  contiguous : ∀ test ∈ tests, ∃ lo hi, lo < hi ∧ test = range lo hi
  disjoint : tests.Pairwise List.Disjoint
  flatten : tests.flatten = range 0 nSamples

theorem partition_tests (h : purgedKfold nSamples k embargo = .ok folds) :
    Partition nSamples k (folds.map Prod.snd) where
  length := by
    obtain ⟨hk, -, rfl⟩ := purgedKfold_ok_iff.mp h
    simp only [List.length_map, length_bounds, foldSizes, length_range]
    omega
  contiguous := by
    intro test htest
    obtain ⟨f, hf, rfl⟩ := List.mem_map.mp htest
    obtain ⟨b, rfl, -, hlt, -⟩ := exists_bounds h hf
    exact ⟨b.1, b.2, hlt, rfl⟩
  disjoint := by
    have hnodup := nodup_range 0 nSamples
    rw [← flatten_tests h, List.nodup_flatten] at hnodup
    exact hnodup.2
  flatten := flatten_tests h

theorem mem_train {b : ℤ × ℤ} {i : ℤ} : i ∈ (fold nSamples embargo b).1 ↔
    (0 ≤ i ∧ i < nSamples) ∧ (i < b.1 ∨ min nSamples (b.2 + embargo) ≤ i) := by
  simp [fold]

/-- No training index is a test index, or up to an embargo after one. -/
def Embargoed (embargo : ℤ) (f : List ℤ × List ℤ) : Prop :=
  ∀ i ∈ f.1, i ∉ f.2 ∧ ∀ t ∈ f.2, ¬(t ≤ i ∧ i ≤ t + embargo)

/-- No training index is a test index, or an embargo away from one on either side. -/
def LeakFree (embargo : ℤ) (f : List ℤ × List ℤ) : Prop :=
  ∀ i ∈ f.1, i ∉ f.2 ∧ ∀ t ∈ f.2, ¬|i - t| ≤ embargo

instance (embargo : ℤ) (f : List ℤ × List ℤ) : Decidable (LeakFree embargo f) :=
  inferInstanceAs (Decidable (∀ i ∈ f.1, i ∉ f.2 ∧ ∀ t ∈ f.2, ¬|i - t| ≤ embargo))

theorem embargoed_of_nonneg (h : purgedKfold nSamples k embargo = .ok folds)
    (hembargo : 0 ≤ embargo) {f : List ℤ × List ℤ} (hf : f ∈ folds) : Embargoed embargo f := by
  obtain ⟨b, rfl, -, hlt, hhi⟩ := exists_bounds h hf
  intro i hi
  obtain ⟨⟨-, hin⟩, hside⟩ := mem_train.mp hi
  -- from the end of the fold on, the embargo is over
  have hafter : i < b.1 ∨ b.2 + embargo ≤ i := by omega
  constructor
  · intro hmem
    obtain ⟨hlo, hhi⟩ := mem_range.mp hmem
    omega
  · rintro t ht ⟨hti, hit⟩
    obtain ⟨hlo, hhi⟩ := mem_range.mp ht
    omega

/-- There is a second fold, and samples before it. -/
theorem exists_before (hk : 2 ≤ k) (hn : k ≤ nSamples) :
    ∃ b ∈ bounds 0 (foldSizes nSamples k), 0 < b.1 := by
  have hpos := foldSizes_pos (by omega) hn
  have hlen : 2 ≤ (foldSizes nSamples k).length := by
    rw [foldSizes, List.length_map, length_range]
    omega
  generalize foldSizes nSamples k = sizes at hpos hlen
  match sizes, hlen with
  | first :: second :: sizes, _ =>
      refine ⟨(0 + first, 0 + first + second), by simp [bounds], ?_⟩
      rw [zero_add]
      exact hpos first List.mem_cons_self

/-- The folds are free of leaks on both sides where there is no embargo, and only there. -/
theorem leakFree_iff (h : purgedKfold nSamples k embargo = .ok folds) :
    (∀ f ∈ folds, LeakFree embargo f) ↔ embargo = 0 := by
  constructor
  · intro hfree
    obtain ⟨hk, hn, rfl⟩ := purgedKfold_ok_iff.mp h
    obtain ⟨b, hb, hb1⟩ := exists_before hk hn
    obtain ⟨-, hlt, hhi⟩ := bounds_within hk hn hb
    have hleak := hfree _ (List.mem_map_of_mem hb)
    rcases lt_trichotomy embargo 0 with hneg | rfl | hpos
    · -- the last sample of the fold comes back into its training set
      have htrain : b.2 - 1 ∈ (fold nSamples embargo b).1 := mem_train.mpr (by omega)
      exact absurd (mem_range.mpr (by omega)) (hleak _ htrain).1
    · rfl
    · -- the sample before the fold never left it
      have htrain : b.1 - 1 ∈ (fold nSamples embargo b).1 := mem_train.mpr (by omega)
      have hnear : |b.1 - 1 - b.1| ≤ embargo := abs_le.mpr (by omega)
      exact absurd hnear ((hleak _ htrain).2 b.1 (mem_range.mpr (by omega)))
  · rintro rfl f hf i hi
    obtain ⟨hnot, hafter⟩ := embargoed_of_nonneg h le_rfl hf i hi
    refine ⟨hnot, ?_⟩
    intro t ht habs
    have heq : i = t := by
      have := abs_nonpos_iff.mp habs
      omega
    exact hnot (heq ▸ ht)

/-- The folds of the generator partition the samples, and no training index lies in the test fold
or within an embargo after any of its test indices. -/
theorem purgedKfold_embargoed (h : purgedKfold nSamples k embargo = .ok folds) :
    Partition nSamples k (folds.map Prod.snd) ∧
      (0 ≤ embargo → ∀ f ∈ folds, Embargoed embargo f) :=
  ⟨partition_tests h, fun hembargo _ => embargoed_of_nonneg h hembargo⟩

theorem purgedKfold_embargoed_of_seven :
    Partition 7 3 [[0, 1, 2], [3, 4], [5, 6]] ∧
      Embargoed 1 ([0, 1, 2, 6], [3, 4]) := by
  have h : purgedKfold 7 3 1 =
      .ok [([4, 5, 6], [0, 1, 2]), ([0, 1, 2, 6], [3, 4]), ([0, 1, 2, 3, 4], [5, 6])] := by
    decide
  obtain ⟨hpart, hfolds⟩ := purgedKfold_embargoed h
  exact ⟨hpart, hfolds (by decide) _ (by decide)⟩

end Folds

/-- With an embargo, the samples right before a test fold are still trained on; with a negative one,
the fold itself is. -/
theorem purgedKfold_leaks :
    (∃ folds, purgedKfold 4 2 1 = .ok folds ∧ ¬∀ f ∈ folds, LeakFree 1 f) ∧
      ∃ folds, purgedKfold 4 2 (-1) = .ok folds ∧ ¬∀ f ∈ folds, LeakFree (-1) f := by
  constructor
  · exact ⟨[([3], [0, 1]), ([0, 1], [2, 3])], by decide, by decide⟩
  · exact ⟨[([1, 2, 3], [0, 1]), ([0, 1, 3], [2, 3])], by decide, by decide⟩

end Backtest

end TreasuryForge

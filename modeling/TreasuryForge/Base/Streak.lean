/-
# `Base.Streak` — the longest unbroken run of items

One pass keeps the run that is going on and the longest so far.  `le_longest_iff` is what it comes
to: there is a run of at least `k`, somewhere in the list, exactly when the longest is no shorter.
-/
import Mathlib.Data.List.Infix
import Mathlib.Order.MinMax
import Mathlib.Order.Nat

namespace TreasuryForge

namespace Streak

variable {α β : Type} (p : α → Bool)

/-- The run that is going on, and the longest so far. -/
def step (s : ℕ × ℕ) (x : α) : ℕ × ℕ := if p x then (s.1 + 1, max s.2 (s.1 + 1)) else (0, s.2)

def longest (xs : List α) : ℕ := (xs.foldl (step p) (0, 0)).2

/-- This many items in a row, all of them `p`. -/
def Run (k : ℕ) (block : List α) : Prop := block.length = k ∧ ∀ x ∈ block, p x = true

variable {p}

theorem run_nil : Run p 0 ([] : List α) := ⟨rfl, fun _ h => absurd h List.not_mem_nil⟩

theorem run_concat {k : ℕ} {block : List α} {x : α} :
    Run p (k + 1) (block ++ [x]) ↔ Run p k block ∧ p x = true := by
  constructor
  · rintro ⟨hlength, hall⟩
    refine ⟨⟨by simpa using hlength, ?_⟩, hall x (by simp)⟩
    intro y hy
    exact hall y (by simp [hy])
  · rintro ⟨⟨hlength, hall⟩, hx⟩
    refine ⟨by simp [hlength], ?_⟩
    intro y hy
    rcases List.mem_append.mp hy with hy | hy
    · exact hall y hy
    · rw [List.mem_singleton.mp hy]
      exact hx

/-- A run that may end with the new item. -/
theorem run_suffix_concat {k : ℕ} {xs : List α} {x : α} :
    (∃ block, block <:+ xs ++ [x] ∧ Run p k block) ↔
      k = 0 ∨ p x = true ∧ ∃ j block, k = j + 1 ∧ block <:+ xs ∧ Run p j block := by
  constructor
  · rintro ⟨block, hsuffix, hrun⟩
    rcases List.suffix_concat_iff.mp hsuffix with rfl | ⟨rest, rfl, hrest⟩
    · exact Or.inl hrun.1.symm
    · have hk : k = rest.length + 1 := by simpa using hrun.1.symm
      subst hk
      obtain ⟨hrun', hx⟩ := run_concat.mp hrun
      exact Or.inr ⟨hx, _, rest, rfl, hrest, hrun'⟩
  · rintro (rfl | ⟨hx, j, block, rfl, hsuffix, hrun⟩)
    · exact ⟨[], List.nil_suffix, run_nil⟩
    · exact ⟨block ++ [x], List.suffix_concat_iff.mpr (Or.inr ⟨block, rfl, hsuffix⟩),
        run_concat.mpr ⟨hrun, hx⟩⟩

/-- The two counters, of a list that grows at its end. -/
theorem counters (xs : List α) :
    (∀ k, k ≤ (xs.foldl (step p) (0, 0)).1 ↔ ∃ block, block <:+ xs ∧ Run p k block) ∧
    ∀ k, k ≤ (xs.foldl (step p) (0, 0)).2 ↔ ∃ block, block <:+: xs ∧ Run p k block := by
  induction xs using List.reverseRecOn with
  | nil =>
      have hnil : ∀ {k : ℕ} {block : List α}, block = [] → Run p k block → k = 0 := by
        rintro k block rfl hrun
        exact hrun.1.symm
      constructor
      · intro k
        constructor
        · intro hk
          obtain rfl := Nat.le_zero.mp hk
          exact ⟨[], List.nil_suffix, run_nil⟩
        · rintro ⟨block, hsuffix, hrun⟩
          exact (hnil (List.suffix_nil.mp hsuffix) hrun).le
      · intro k
        constructor
        · intro hk
          obtain rfl := Nat.le_zero.mp hk
          exact ⟨[], List.nil_infix, run_nil⟩
        · rintro ⟨block, hinfix, hrun⟩
          exact (hnil (List.infix_nil.mp hinfix) hrun).le
  | append_singleton xs x ih =>
      obtain ⟨hcur, hbest⟩ := ih
      rw [List.foldl_append]
      generalize xs.foldl (step p) (0, 0) = s at hcur hbest
      simp only [List.foldl_cons, List.foldl_nil]
      have hcur' : ∀ k, k ≤ (step p s x).1 ↔ ∃ block, block <:+ xs ++ [x] ∧ Run p k block := by
        intro k
        rw [run_suffix_concat, step]
        cases hx : p x with
        | false => simp
        | true =>
            simp only [if_true, true_and]
            constructor
            · intro hk
              cases k with
              | zero => exact Or.inl rfl
              | succ j =>
                  obtain ⟨block, hblock⟩ := (hcur j).mp (Nat.succ_le_succ_iff.mp hk)
                  exact Or.inr ⟨j, block, rfl, hblock⟩
            · rintro (rfl | ⟨j, block, rfl, hblock⟩)
              · exact Nat.zero_le _
              · exact Nat.succ_le_succ ((hcur j).mpr ⟨block, hblock⟩)
      refine ⟨hcur', ?_⟩
      intro k
      have hcut : (∃ block, block <:+: xs ++ [x] ∧ Run p k block) ↔
          k ≤ (step p s x).1 ∨ k ≤ s.2 := by
        rw [hcur' k, hbest k]
        simp only [List.infix_concat_iff, or_and_right, exists_or]
      rw [hcut, step]
      split
      · rw [le_max_iff, or_comm]
      · simp only [Nat.le_zero]
        refine (or_iff_right_of_imp ?_).symm
        rintro rfl
        exact Nat.zero_le _

theorem le_longest_iff (xs : List α) (k : ℕ) :
    k ≤ longest p xs ↔ ∃ block, block <:+: xs ∧ Run p k block := (counters xs).2 k

end Streak

end TreasuryForge

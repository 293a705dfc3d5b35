/-
# `Base.Since` — something happened, and something has held from then on

`Since P keep n xs`: an item of `xs` with at least `n` items behind it satisfies `P`, and every item
behind it satisfies `keep`.  A list grows at its end, and `since_concat` says what one more item
does; so a counter or a flag that a program keeps is a `Since` of its history once the two agree on
one step.
-/
import Mathlib.Data.List.Basic

namespace TreasuryForge

variable {α β : Type} {P keep : α → Prop}

def Since (P keep : α → Prop) (n : ℕ) (xs : List α) : Prop :=
  ∃ before a behind, xs = before ++ a :: behind ∧ P a ∧ n ≤ behind.length ∧ ∀ b ∈ behind, keep b

namespace Since

theorem nil (n : ℕ) : ¬ Since P keep n [] := by
  rintro ⟨before, a, behind, hxs, -⟩
  simp at hxs

/-- One item more: it is the one, or it keeps what was. -/
theorem concat {xs : List α} {x : α} :
    Since P keep 0 (xs ++ [x]) ↔ P x ∨ keep x ∧ Since P keep 0 xs := by
  constructor
  · rintro ⟨before, a, behind, hxs, ha, -, hkeep⟩
    rcases List.eq_nil_or_concat behind with rfl | ⟨rest, y, rfl⟩
    · obtain ⟨-, hx⟩ := List.append_inj' hxs rfl
      cases hx
      exact Or.inl ha
    · rw [List.concat_eq_append, ← List.cons_append, ← List.append_assoc] at hxs
      obtain ⟨hinit, hlast⟩ := List.append_inj' hxs rfl
      cases hlast
      refine Or.inr ⟨hkeep _ (by simp), before, a, rest, hinit, ha, Nat.zero_le _, ?_⟩
      intro b hb
      exact hkeep b (by simp [hb])
  · rintro (hx | ⟨hx, before, a, behind, rfl, ha, -, hkeep⟩)
    · exact ⟨xs, x, [], rfl, hx, Nat.le_refl 0, by simp⟩
    · refine ⟨before, a, behind ++ [x], by simp, ha, Nat.zero_le _, ?_⟩
      intro b hb
      rcases List.mem_append.mp hb with hb | hb
      · exact hkeep b hb
      · rw [List.mem_singleton.mp hb]
        exact hx

theorem concat_succ {n : ℕ} {xs : List α} {x : α} :
    Since P keep (n + 1) (xs ++ [x]) ↔ keep x ∧ Since P keep n xs := by
  constructor
  · rintro ⟨before, a, behind, hxs, ha, hn, hkeep⟩
    rcases List.eq_nil_or_concat behind with rfl | ⟨rest, y, rfl⟩
    · simp at hn
    · rw [List.concat_eq_append, ← List.cons_append, ← List.append_assoc] at hxs
      obtain ⟨hinit, hlast⟩ := List.append_inj' hxs rfl
      cases hlast
      refine ⟨hkeep _ (by simp), before, a, rest, hinit, ha, ?_, ?_⟩
      · simpa using hn
      · intro b hb
        exact hkeep b (by simp [hb])
  · rintro ⟨hx, before, a, behind, rfl, ha, hn, hkeep⟩
    refine ⟨before, a, behind ++ [x], by simp, ha, by simpa using hn, ?_⟩
    intro b hb
    rcases List.mem_append.mp hb with hb | hb
    · exact hkeep b hb
    · rw [List.mem_singleton.mp hb]
      exact hx

end Since

/-- Every item behind what stands before it, of a list that goes on after `before`. -/
def cutsFrom (before : List α) : List α → List (List α × α)
  | [] => []
  | x :: xs => (before, x) :: cutsFrom (before ++ [x]) xs

def cuts (xs : List α) : List (List α × α) := cutsFrom [] xs

theorem mem_cutsFrom {before front xs : List α} {x : α} :
    (front, x) ∈ cutsFrom before xs ↔
      ∃ since behind, front = before ++ since ∧ xs = since ++ x :: behind := by
  induction xs generalizing before with
  | nil => simp [cutsFrom]
  | cons y ys ih =>
      rw [cutsFrom, List.mem_cons, ih]
      constructor
      · rintro (hfirst | ⟨since, behind, rfl, rfl⟩)
        · cases hfirst
          exact ⟨[], ys, by simp, rfl⟩
        · exact ⟨y :: since, behind, by simp, rfl⟩
      · rintro ⟨since, behind, rfl, hcut⟩
        cases since with
        | nil =>
            obtain ⟨rfl, rfl⟩ := List.cons_eq_cons.mp hcut
            exact Or.inl (by simp)
        | cons z since =>
            obtain ⟨rfl, rfl⟩ := List.cons_eq_cons.mp hcut
            exact Or.inr ⟨since, behind, by simp, rfl⟩

theorem mem_cuts {front xs : List α} {x : α} :
    (front, x) ∈ cuts xs ↔ ∃ behind, xs = front ++ x :: behind := by
  rw [cuts, mem_cutsFrom]
  constructor
  · rintro ⟨since, behind, rfl, hcut⟩
    exact ⟨behind, hcut⟩
  · rintro ⟨behind, hcut⟩
    exact ⟨front, behind, rfl, hcut⟩

end TreasuryForge

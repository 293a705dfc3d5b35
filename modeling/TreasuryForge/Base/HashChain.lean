/-
# `Base.HashChain` — what the head of a chain of seals binds

Each link is made of the head before it and one more item, and is the next head.  If links on
reached heads are of one head and one item each, and none is the head of the empty chain, then
a head tells everything that was linked into it (`head_inj`).  So whoever can only repeat the
links that were made for a list can only repeat the list, from its beginning
(`prefix_of_link`).
-/
import Mathlib.Data.List.Infix

namespace HashChain

structure Chain (H A : Type) where
  genesis : H
  link : H → A → H

variable {H A : Type} (S : Chain H A)

def Chain.head (xs : List A) : H := xs.foldl S.link S.genesis

@[simp] theorem head_snoc (xs : List A) (x : A) : S.head (xs ++ [x]) = S.link (S.head xs) x := by
  rw [Chain.head, List.foldl_append]
  rfl

/-- On heads that are reached, a link with one of `own` is a link of nothing else. -/
structure Chain.Binding (own : A → Prop) : Prop where
  fresh : ∀ xs x, S.link (S.head xs) x ≠ S.genesis
  inj : ∀ {xs ys x y}, own x → S.link (S.head xs) x = S.link (S.head ys) y →
    S.head xs = S.head ys ∧ x = y

variable {S} {own : A → Prop}

theorem head_inj (hb : S.Binding own) {xs ys : List A} (hown : ∀ x ∈ xs, own x)
    (h : S.head xs = S.head ys) : xs = ys := by
  induction xs using List.reverseRecOn generalizing ys with
  | nil =>
      cases ys using List.reverseRecOn with
      | nil => rfl
      | append_singleton ys y =>
          rw [head_snoc] at h
          exact absurd h.symm (hb.fresh ys y)
  | append_singleton xs x ih =>
      cases ys using List.reverseRecOn with
      | nil =>
          rw [head_snoc] at h
          exact absurd h (hb.fresh xs x)
      | append_singleton ys y =>
          rw [head_snoc, head_snoc] at h
          obtain ⟨hhead, rfl⟩ := hb.inj (hown x (by simp)) h
          rw [ih (fun z hz => hown z (List.mem_append_left _ hz)) hhead]

/-- A link that is among those made for `xs` continues a beginning of `xs` as `xs` does. -/
theorem prefix_of_link (hb : S.Binding own) {xs p done : List A} (hown : ∀ x ∈ xs, own x)
    (hp : p <+: xs) {y : A} (h : S.head p = S.link (S.head done) y) : done ++ [y] <+: xs := by
  have he : p = done ++ [y] := by
    refine head_inj hb (fun x hx => hown x (hp.subset hx)) ?_
    rw [h, head_snoc]
  rw [← he]
  exact hp

end HashChain

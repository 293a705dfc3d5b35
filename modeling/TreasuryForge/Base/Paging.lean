/-
# `Base.Paging` — fetching a server's rows page by page

A server holds rows in the order of their times, and answers a start with the first rows from
there on, as many as it likes but not none (`Serves`).  `syncLoop` asks again after the last row
that it got, and hands on each page.  It ends, and what it hands on is a run of rows without a
gap that lacks none before its limit (`syncLoop_fetches`).
-/
import Mathlib.Data.List.Infix
import Mathlib.Data.List.Sort
import Mathlib.Order.Interval.Set.Defs

namespace Paging

variable {R S : Type} (time : R → ℤ)

/-- The rows from a time on. -/
def since (rows : List R) (s : ℤ) : List R := rows.filter fun row => decide (s ≤ time row)

/-- The pages of a server: the earliest rows from the start on, and some if there are any. -/
structure Serves (rows : List R) (page : ℤ → List R) : Prop where
  ascending : rows.Pairwise fun a b => time a < time b
  earliest : ∀ s, page s <+: since time rows s
  nonempty : ∀ s, since time rows s ≠ [] → page s ≠ []

/-- `while cur < now`, with fuel for the requests. -/
def syncLoop (page : ℤ → List R) (absorb : S → List R → S) (now : ℤ) :
    ℕ → ℤ → List ℤ → S → Option S
  | fuel, cur, seen, s =>
      if now ≤ cur then some s
      else
        match fuel with
        | 0 => none
        | fuel + 1 =>
            let new := (page cur).filter fun row => decide (time row ∉ seen)
            match new.getLast? with
            | none => some s
            | some last =>
                syncLoop page absorb now fuel (time last + 1) (seen ++ new.map time) (absorb s new)

variable {time} {rows : List R} {page : ℤ → List R}

theorem mem_since {s : ℤ} {row : R} : row ∈ since time rows s ↔ row ∈ rows ∧ s ≤ time row := by
  simp [since]

theorem Serves.le_last (h : Serves time rows page) {s : ℤ} {last : R}
    (hlast : (page s).getLast? = some last) : ∀ row ∈ page s, time row ≤ time last := by
  obtain ⟨init, hinit⟩ := List.getLast?_eq_some_iff.mp hlast
  have hpage : (page s).Pairwise fun a b => time a < time b :=
    h.ascending.sublist ((h.earliest s).sublist.trans List.filter_sublist)
  rw [hinit] at hpage ⊢
  obtain ⟨-, -, hbefore⟩ := List.pairwise_append.mp hpage
  intro row hrow
  rcases List.mem_append.mp hrow with hmem | hmem
  · exact (hbefore row hmem last List.mem_cons_self).le
  · rw [List.mem_singleton.mp hmem]

/-- After a page come the rows that are later than its last one. -/
theorem Serves.since_eq (h : Serves time rows page) {s : ℤ} {last : R}
    (hlast : (page s).getLast? = some last) :
    s ≤ time last ∧ since time rows s = page s ++ since time rows (time last + 1) := by
  obtain ⟨rest, hrest⟩ := h.earliest s
  have hsorted : (since time rows s).Pairwise fun a b => time a < time b :=
    h.ascending.sublist List.filter_sublist
  rw [← hrest] at hsorted
  obtain ⟨-, -, hacross⟩ := List.pairwise_append.mp hsorted
  have hmem : last ∈ page s := List.mem_of_getLast? hlast
  have hstart : s ≤ time last := by
    have hsince : last ∈ since time rows s := hrest ▸ List.mem_append_left rest hmem
    exact (mem_since.mp hsince).2
  have hdone : (page s).filter (fun row => decide (time last + 1 ≤ time row)) = [] := by
    refine List.filter_eq_nil_iff.mpr fun row hrow hlater => ?_
    have := h.le_last hlast row hrow
    have := of_decide_eq_true hlater
    omega
  have htodo : rest.filter (fun row => decide (time last + 1 ≤ time row)) = rest := by
    refine List.filter_eq_self.mpr fun row hrow => decide_eq_true ?_
    have := hacross last hmem row hrow
    omega
  have hrefine : since time rows (time last + 1) =
      (since time rows s).filter fun row => decide (time last + 1 ≤ time row) := by
    rw [since, since, List.filter_filter]
    refine List.filter_congr fun row _ => ?_
    rw [Bool.eq_iff_iff, Bool.and_eq_true, decide_eq_true_iff, decide_eq_true_iff]
    omega
  refine ⟨hstart, ?_⟩
  rw [hrefine, ← hrest, List.filter_append, hdone, htodo, List.nil_append]

/-- The loop ends, and hands on a run of the rows that lacks none before the limit. -/
theorem syncLoop_fetches (h : Serves time rows page) (absorb : S → List R → S) (now cur : ℤ)
    {seen : List ℤ} (hseen : ∀ t ∈ seen, t < cur) (s : S) :
    ∃ pages : List (List R), pages.flatten <+: since time rows cur ∧
      (∀ row ∈ since time rows cur, time row < now → row ∈ pages.flatten) ∧
      ∀ fuel, (since time rows cur).length < fuel →
        syncLoop time page absorb now fuel cur seen s = some (pages.foldl absorb s) := by
  generalize hn : (since time rows cur).length = n
  induction n using Nat.strong_induction_on generalizing cur seen s with
  | _ n ih =>
      subst hn
      by_cases hover : now ≤ cur
      · refine ⟨[], List.nil_prefix, fun row hrow hlt => ?_, fun fuel _ => ?_⟩
        · have := (mem_since.mp hrow).2
          omega
        · unfold syncLoop
          rw [if_pos hover]
          rfl
      · -- nothing of a page was seen before, as it starts after all that was
        have hnew : (page cur).filter (fun row => decide (time row ∉ seen)) = page cur := by
          refine List.filter_eq_self.mpr fun row hrow => decide_eq_true fun hmem => ?_
          have := hseen _ hmem
          have := (mem_since.mp ((h.earliest cur).subset hrow)).2
          omega
        have hloop : ∀ fuel, syncLoop time page absorb now (fuel + 1) cur seen s =
            match (page cur).getLast? with
            | none => some s
            | some last => syncLoop time page absorb now fuel (time last + 1)
                (seen ++ (page cur).map time) (absorb s (page cur)) := by
          intro fuel
          rw [syncLoop, if_neg hover]
          dsimp only
          rw [hnew]
        cases hlast : (page cur).getLast? with
        | none =>
            have hempty : since time rows cur = [] := by
              by_contra hne
              exact h.nonempty cur hne (List.getLast?_eq_none_iff.mp hlast)
            refine ⟨[], List.nil_prefix, fun row hrow _ => ?_, fun fuel hfuel => ?_⟩
            · rw [hempty] at hrow
              cases hrow
            · obtain ⟨fuel, rfl⟩ := Nat.exists_eq_succ_of_ne_zero (Nat.ne_zero_of_lt hfuel)
              rw [hloop, hlast]
              rfl
        | some last =>
            obtain ⟨hstart, hsplit⟩ := h.since_eq hlast
            have hpage : page cur ≠ [] := by
              intro hnil
              rw [hnil] at hlast
              cases hlast
            have hlen : (since time rows cur).length =
                (page cur).length + (since time rows (time last + 1)).length := by
              rw [hsplit, List.length_append]
            have hpos : 0 < (page cur).length := List.length_pos_iff.mpr hpage
            have hseen' : ∀ t ∈ seen ++ (page cur).map time, t < time last + 1 := by
              intro t ht
              rcases List.mem_append.mp ht with hold | hnow
              · have := hseen t hold
                omega
              · obtain ⟨row, hrow, rfl⟩ := List.mem_map.mp hnow
                have := h.le_last hlast row hrow
                omega
            obtain ⟨pages, hfirst, hall, hrun⟩ :=
              ih _ (by omega) (time last + 1) hseen' (absorb s (page cur)) rfl
            refine ⟨page cur :: pages, ?_, ?_, ?_⟩
            · rw [List.flatten_cons, hsplit]
              exact List.prefix_append_right_inj _ |>.mpr hfirst
            · intro row hrow hlt
              rw [hsplit] at hrow
              rw [List.flatten_cons]
              rcases List.mem_append.mp hrow with hnow | hlater
              · exact List.mem_append_left _ hnow
              · exact List.mem_append_right _ (hall row hlater hlt)
            · intro fuel hfuel
              obtain ⟨fuel, rfl⟩ := Nat.exists_eq_succ_of_ne_zero (Nat.ne_zero_of_lt hfuel)
              rw [hloop, hlast]
              exact hrun fuel (by omega)

end Paging

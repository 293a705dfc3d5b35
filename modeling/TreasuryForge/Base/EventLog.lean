/-
# `Base.EventLog` — a log that only grows, each event allowed by those before it

`Grown Legal log` says that `log` was written one event at a time, and that each event was
`Legal` after what stood in the log then.  Whoever reads such a log may cut it anywhere: what
stands before an event made the event legal (`Grown.split`), every beginning has grown
(`Grown.take`), and what every legal event keeps holds of the whole (`Grown.keeps`).
-/
import Mathlib.Data.List.Basic
import Mathlib.Data.Nat.Notation

namespace EventLog

variable {E : Type} {Legal : List E → E → Prop}

/-- Every event was legal when it was written. -/
inductive Grown (Legal : List E → E → Prop) : List E → Prop
  | nil : Grown Legal []
  | snoc {log : List E} {e : E} : Grown Legal log → Legal log e → Grown Legal (log ++ [e])

namespace Grown

/-- What every legal event keeps. -/
theorem keeps {P : List E → Prop} (hnil : P [])
    (hstep : ∀ {log e}, Grown Legal log → P log → Legal log e → P (log ++ [e])) {log : List E}
    (h : Grown Legal log) : P log := by
  induction h with
  | nil => exact hnil
  | snoc hlog he ih => exact hstep hlog ih he

/-- At any event the log is cut into one that has grown, and an event that was legal in it. -/
theorem split {xs ys : List E} {e : E} (h : Grown Legal (xs ++ e :: ys)) :
    Grown Legal xs ∧ Legal xs e := by
  generalize hlog : xs ++ e :: ys = log at h
  induction h generalizing ys with
  | nil => exact absurd hlog (by simp)
  | @snoc log e' hprev he ih =>
      rcases List.eq_nil_or_concat ys with rfl | ⟨ys', last, rfl⟩
      · obtain ⟨rfl, hlast⟩ := List.append_inj' hlog rfl
        cases hlast
        exact ⟨hprev, he⟩
      · have hcut : (xs ++ e :: ys') ++ [last] = log ++ [e'] := by
          rw [List.append_assoc, List.cons_append]
          rw [List.concat_eq_append] at hlog
          exact hlog
        exact ih (List.append_inj' hcut rfl).1

/-- A beginning of a log has grown. -/
theorem take {log : List E} (h : Grown Legal log) (k : ℕ) : Grown Legal (log.take k) := by
  have hcut : log.take k ++ log.drop k = log := List.take_append_drop k log
  cases hrest : log.drop k with
  | nil =>
      rw [hrest, List.append_nil] at hcut
      rw [hcut]
      exact h
  | cons e rest =>
      rw [← hcut, hrest] at h
      exact h.split.1

end Grown

end EventLog

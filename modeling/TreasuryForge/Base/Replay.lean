/-
# `Base.Replay` — a program that is restarted between its steps

A step answers and changes the state; a restart makes a new state of what the old one left
behind, and may fail.  If a restart gives the state back wherever a run can be, then it cannot
be seen: with restarts anywhere, a run is the run without them (`run_transparent`).
-/
import Mathlib.Data.List.Basic

namespace Replay

/-- What happens to a program. -/
inductive Event (I : Type) where
  | input (i : I)
  | restart

/-- The inputs among these events. -/
def inputs {I : Type} : List (Event I) → List I
  | [] => []
  | .input i :: es => i :: inputs es
  | .restart :: es => inputs es

@[simp] theorem inputs_append {I : Type} (es es' : List (Event I)) :
    inputs (es ++ es') = inputs es ++ inputs es' := by
  induction es with
  | nil => rfl
  | cons e es ih =>
      cases e with
      | input i => exact congrArg (i :: ·) ih
      | restart => exact ih

structure Program (S I A : Type) where
  step : S → I → A × S
  restart : S → Option S

namespace Program

variable {S I A : Type} (P : Program S I A)

/-- The answers and the last state, of a run that is never restarted. -/
def steps (s : S) : List I → List A × S
  | [] => ([], s)
  | i :: is =>
      let rest := steps (P.step s i).2 is
      ((P.step s i).1 :: rest.1, rest.2)

/-- The answers and the last state, if no restart fails. -/
def run (s : S) : List (Event I) → Option (List A × S)
  | [] => some ([], s)
  | .input i :: es =>
      (run (P.step s i).2 es).map fun rest => ((P.step s i).1 :: rest.1, rest.2)
  | .restart :: es => (P.restart s).bind fun s' => run s' es

/-- What holds wherever a run can be, and makes a restart give the state back. -/
structure Restartable (Good : S → Prop) : Prop where
  step : ∀ {s}, Good s → ∀ i, Good (P.step s i).2
  restart : ∀ {s}, Good s → P.restart s = some s

variable {P} {Good : S → Prop} {s : S}

theorem run_transparent (h : P.Restartable Good) (hs : Good s) (es : List (Event I)) :
    P.run s es = some (P.steps s (inputs es)) := by
  induction es generalizing s with
  | nil => rfl
  | cons e es ih =>
      cases e with
      | input i =>
          rw [run, ih (h.step hs i)]
          rfl
      | restart =>
          rw [run, h.restart hs]
          exact ih hs

/-- What every step keeps holds at the end of a run. -/
theorem steps_keeps (Good : S → Prop) (hstep : ∀ {s}, Good s → ∀ i, Good (P.step s i).2)
    (hs : Good s) (is : List I) : Good (P.steps s is).2 := by
  induction is generalizing s with
  | nil => exact hs
  | cons i is ih => exact ih (hstep hs i)

theorem steps_append (is js : List I) : P.steps s (is ++ js) =
    ((P.steps s is).1 ++ (P.steps (P.steps s is).2 js).1, (P.steps (P.steps s is).2 js).2) := by
  induction is generalizing s with
  | nil => rfl
  | cons i is ih =>
      simp only [steps, List.cons_append, ih]

end Program

end Replay

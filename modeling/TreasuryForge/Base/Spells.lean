/-
# `Base.Spells` — the spells of a trace

A trace says of every step what it did: it opened a spell, went on with it, closed it,
or stood outside one.  `spells` cuts the trace into its spells.  A spell keeps the step
it started at, the steps it was open after, and the step that closed it; the last spell
of a trace may have none.
-/
import Mathlib.Data.List.Basic

namespace Spells

inductive Mark where
  | opens
  | stays
  | closes
  | idle
  deriving DecidableEq, Repr

structure Spell (α : Type) where
  start : ℕ
  items : List α
  closing : Option α := none
  deriving DecidableEq, Repr

namespace Spell

variable {α : Type}

def push (s : Spell α) (a : α) : Spell α := { s with items := s.items ++ [a] }

def close (s : Spell α) (a : α) : Spell α := { s with closing := some a }

@[simp] theorem push_start (s : Spell α) (a : α) : (s.push a).start = s.start := rfl

@[simp] theorem push_items (s : Spell α) (a : α) : (s.push a).items = s.items ++ [a] := rfl

@[simp] theorem close_start (s : Spell α) (a : α) : (s.close a).start = s.start := rfl

@[simp] theorem close_items (s : Spell α) (a : α) : (s.close a).items = s.items := rfl

@[simp] theorem close_closing (s : Spell α) (a : α) : (s.close a).closing = some a := rfl

end Spell

section Cut
variable {α : Type} (mark : α → Mark)

/-- The spells of a trace whose first step has index `k`, with the spell that is open
before it. -/
def spellsFrom : ℕ → Option (Spell α) → List α → List (Spell α)
  | _, cur, [] => cur.toList
  | k, cur, a :: as =>
      match mark a with
      | .opens => spellsFrom (k + 1) (some { start := k, items := [a] }) as
      | .stays => spellsFrom (k + 1) (cur.map (·.push a)) as
      | .closes => (cur.map (·.close a)).toList ++ spellsFrom (k + 1) none as
      | .idle => spellsFrom (k + 1) cur as

/-- The spells of a whole trace. -/
def spells (trace : List α) : List (Spell α) := spellsFrom mark 0 none trace

variable {mark} {k : ℕ} {cur : Option (Spell α)} {s : Spell α} {a : α} {as : List α}

@[simp] theorem spellsFrom_nil : spellsFrom mark k cur [] = cur.toList := rfl

theorem spellsFrom_opens (h : mark a = .opens) : spellsFrom mark k cur (a :: as) =
    spellsFrom mark (k + 1) (some { start := k, items := [a] }) as := by
  rw [spellsFrom, h]

theorem spellsFrom_stays (h : mark a = .stays) : spellsFrom mark k (some s) (a :: as) =
    spellsFrom mark (k + 1) (some (s.push a)) as := by
  rw [spellsFrom, h]
  rfl

theorem spellsFrom_closes (h : mark a = .closes) : spellsFrom mark k (some s) (a :: as) =
    s.close a :: spellsFrom mark (k + 1) none as := by
  rw [spellsFrom, h]
  rfl

theorem spellsFrom_idle (h : mark a = .idle) : spellsFrom mark k cur (a :: as) =
    spellsFrom mark (k + 1) cur as := by
  rw [spellsFrom, h]

end Cut

end Spells

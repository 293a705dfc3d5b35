/-
# `Base.JsonLimits` — texts that are well formed, and cannot be read

`json.loads` and `json.dumps` raise where a limit of the interpreter is reached: an integer of more
digits than it converts, which is a `ValueError` but no `JSONDecodeError`, and containers nested
deeper than its stack.  On which texts and values that is depends on its settings and on who calls,
so `Limits` says it of each, and nothing is assumed of it; `Limits.none` are those of an interpreter
that has none.

A file that is read as UTF-8 may fail before its end, too: a `TextFile` is what there is to read
of it, and what then fails, if anything.
-/
import TreasuryForge.Base.JsonValue

namespace JsonText

inductive Limit where
  | digits
  | depth
  deriving DecidableEq, Repr

/-- The exception that is raised. -/
def Limit.text : Limit → String
  | .digits => "ValueError: Exceeds the limit (4300 digits) for integer string conversion"
  | .depth => "RecursionError: maximum recursion depth exceeded"

/-- The limit that reading a text reaches first, and the one that writing a value does. -/
structure Limits (F : Type) where
  reading : List Char → Option Limit
  writing : Val F → Option Limit

def Limits.none {F : Type} : Limits F := ⟨fun _ => .none, fun _ => .none⟩

/-- What `json.loads` comes to. -/
inductive Loaded (F : Type) where
  | value (v : Val F)
  | malformed
  | raised (limit : Limit)

variable {F : Type} (fl : Floats F) (limits : Limits F)

/-- `json.loads`, of an interpreter with these limits. -/
def loadsWithin (cs : List Char) : Loaded F :=
  match limits.reading cs with
  | some limit => .raised limit
  | .none =>
      match loads fl cs with
      | some v => .value v
      | .none => .malformed

variable {fl limits} {cs : List Char}

/-- A value that was read is the value of the text. -/
theorem loadsWithin_eq_value {v : Val F} :
    loadsWithin fl limits cs = .value v ↔ limits.reading cs = .none ∧ loads fl cs = some v := by
  unfold loadsWithin
  cases limits.reading cs with
  | some limit => simp
  | none =>
      cases loads fl cs with
      | some w => simp
      | none => simp

theorem loadsWithin_of_reading (h : limits.reading cs = .none) {v : Val F}
    (hv : loads fl cs = some v) : loadsWithin fl limits cs = .value v :=
  loadsWithin_eq_value.mpr ⟨h, hv⟩

/-! ## Files -/

/-- What reading a file fails with: the file system, or bytes that are no UTF-8. -/
inductive ReadFailure where
  | os
  | unicode
  deriving DecidableEq, Repr

/-- What can be read of a file, which ends with a line where the file is read line by line, and what
fails after that. -/
structure TextFile where
  text : List Char
  failure : Option ReadFailure := .none
  deriving DecidableEq, Repr

end JsonText

/-
# `Base.Lines` — a text file, read line by line

A file that is opened for text has its lines ended by a line feed, a carriage return or both,
and a reader that strips every line and skips the blank ones sees `records`.  What stands
before a line feed and what stands after it are read apart (`records_append`), so a line that
was written with its line feed is read whatever is appended later, and what is appended after
an unended line is read as part of that line.
-/
import Mathlib.Data.List.DropRight

namespace Lines

def isLineEnd (c : Char) : Bool := c == '\n' || c == '\r'

/-- `str.isspace`, of one character. -/
def isBlank (c : Char) : Bool :=
  (9 ≤ c.toNat && c.toNat ≤ 13) || (28 ≤ c.toNat && c.toNat ≤ 32) || c.toNat == 0x85 ||
    c.toNat == 0xa0 || c.toNat == 0x1680 || (0x2000 ≤ c.toNat && c.toNat ≤ 0x200a) ||
    c.toNat == 0x2028 || c.toNat == 0x2029 || c.toNat == 0x202f || c.toNat == 0x205f ||
    c.toNat == 0x3000

def strip (cs : List Char) : List Char := (cs.dropWhile isBlank).rdropWhile isBlank

/-- The line, stripped, if something is left of it. -/
def record (line : List Char) : List (List Char) := if strip line = [] then [] else [strip line]

def records (file : List Char) : List (List Char) := (file.splitOnP isLineEnd).flatMap record

@[simp] theorem records_nil : records [] = [] := rfl

theorem records_append (a b : List Char) : records (a ++ '\n' :: b) = records a ++ records b := by
  have hend : isLineEnd '\n' = true := rfl
  rw [records, List.splitOnP_append_cons _ _ hend, List.flatMap_append]
  rfl

/-- A line that is not ended is one record, or none. -/
theorem records_line {line : List Char} (h : ∀ c ∈ line, isLineEnd c = false) :
    records line = record line := by
  rw [records, List.splitOnP_eq_singleton h, List.flatMap_singleton]

theorem strip_prefix {line : List Char} (h : ∀ c ∈ line.head?, isBlank c = false) :
    strip line <+: line := by
  have hdrop : line.dropWhile isBlank = line := by
    cases line with
    | nil => rfl
    | cons c cs => exact List.dropWhile_cons_of_neg (by simpa using h c rfl)
  rw [strip, hdrop]
  exact List.rdropWhile_prefix _ _

theorem strip_eq_self {line : List Char} (hhead : ∀ c ∈ line.head?, isBlank c = false)
    (hlast : ∀ c ∈ line.getLast?, isBlank c = false) : strip line = line := by
  have hdrop : line.dropWhile isBlank = line := by
    cases line with
    | nil => rfl
    | cons c cs => exact List.dropWhile_cons_of_neg (by simpa using hhead c rfl)
  rw [strip, hdrop, List.rdropWhile_eq_self_iff]
  intro hne
  have hget := hlast _ (List.getLast?_eq_some_getLast hne)
  simp [hget]

/-- Nothing is left of a line that begins with something, except that line's blanks. -/
theorem strip_ne_nil {c : Char} {cs : List Char} (h : isBlank c = false) : strip (c :: cs) ≠ [] := by
  have hdrop : (c :: cs).dropWhile isBlank = c :: cs := List.dropWhile_cons_of_neg (by simpa using h)
  rw [strip, hdrop, ne_eq, List.rdropWhile_eq_nil_iff]
  exact fun hall => absurd (hall c List.mem_cons_self) (by simp [h])

theorem strip_append_blank {c : Char} (h : isBlank c = true) (cs : List Char) :
    strip (cs ++ [c]) = strip cs := by
  by_cases hall : cs.dropWhile isBlank = []
  · have hdrop : (cs ++ [c]).dropWhile isBlank = [] := by
      rw [List.dropWhile_eq_nil_iff] at hall ⊢
      intro d hd
      rcases List.mem_append.mp hd with hd | hd
      · exact hall d hd
      · rw [List.mem_singleton.mp hd]
        exact h
    rw [strip, strip, hall, hdrop]
  · have hdrop : (cs ++ [c]).dropWhile isBlank = cs.dropWhile isBlank ++ [c] := by
      rw [List.dropWhile_append, if_neg (by simpa using hall)]
    rw [strip, hdrop, List.rdropWhile_concat_pos _ _ _ h, strip]

/-! ## The end of a file -/

/-- What comes after the last line end. -/
def lastLine (file : List Char) : List Char := file.rtakeWhile fun c => !isLineEnd c

/-- The file is empty, or ends with a line feed. -/
def Closed (file : List Char) : Prop := file = [] ∨ ∃ cs, file = cs ++ ['\n']

theorem records_closed {file : List Char} (h : Closed file) (cs : List Char) :
    records (file ++ cs) = records file ++ records cs := by
  rcases h with rfl | ⟨a, rfl⟩
  · rfl
  · have hend : records (a ++ ['\n']) = records a := by
      rw [records_append, records_nil, List.append_nil]
    rw [hend, List.append_assoc, List.singleton_append, records_append]

theorem lastLine_closed {file line : List Char} (h : Closed file)
    (hline : ∀ c ∈ line, isLineEnd c = false) : lastLine (file ++ line) = line := by
  have hall : ∀ c ∈ line.reverse, (!isLineEnd c) = true := by
    intro c hc
    rw [hline c (List.mem_reverse.mp hc)]
    rfl
  rw [lastLine, List.rtakeWhile, List.reverse_append, List.takeWhile_append_of_pos hall]
  have hnone : file.reverse.takeWhile (fun c => !isLineEnd c) = [] := by
    rcases h with rfl | ⟨a, rfl⟩
    · rfl
    · rw [List.reverse_append]
      rfl
  rw [hnone, List.append_nil, List.reverse_reverse]

end Lines

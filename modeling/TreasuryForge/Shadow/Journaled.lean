/-
# `Shadow.Journaled` — a book that is rebuilt from what it appended

A book answers an observation, changes, and appends one event to its journal.  A restart makes
a fresh book and goes through the events of the file.  If going through the event of an
observation changes any book as the observation did (`Faithful`), then a book is at every time
the one a restart would make (`restartable`), and no restart can be seen.
-/
import TreasuryForge.Base.JsonExact
import TreasuryForge.Base.Replay
import TreasuryForge.Core.Ledger

namespace TreasuryForge

namespace Shadow

open JsonText Lines Replay

/-- What kind of book it is. -/
structure Journaled (B O A : Type) where
  fresh : B
  observe : B → O → A × B
  /-- The record that an observation of this book appends. -/
  event : B → O → List (String × Val ℚ)
  /-- What `__post_init__` does with one event; fails where it raises. -/
  replay : B → Val ℚ → Option B

/-- The kind of an event is this one. -/
def isKind (ev : List (Key ℚ × Val ℚ)) (kind : String) : Bool :=
  match get? ev "kind" with
  | some (.str s) => s = Str.of kind
  | _ => false

/-- `str(v)`, of a text. -/
def toText : Val ℚ → Option Str
  | .str s => some s
  | _ => none

section Append

variable {fl : Floats ℚ}

/-- What an append adds to what is read, of a record that can be written. -/
theorem read_appended {ms : List (String × Val ℚ)} (hn : (ms.map Prod.fst).Nodup)
    (he : ∀ m ∈ ms, m.2.encodable fl = true) {file : List Char} (hc : Closed file) :
    ∃ ev, (∀ name, get? ev name = (ms.lookup name).map (Val.kept fl)) ∧
      Closed (Journal.appendEvent fl file (fields ms)) ∧
      Journal.readLedger fl (Journal.appendEvent fl file (fields ms)) =
        Journal.readLedger fl file ++ [.dict ev] := by
  obtain ⟨ev, hkept, hget⟩ := get?_kept hn he
  have hline : Journal.line fl (fields ms) =
      some ((written fl (.dict (fields ms))).render .compact) := by
    rw [Journal.line, dumps, encode_written (encodable_fields he)]
    rfl
  have happend : Journal.appendEvent fl file (fields ms) =
      file ++ ((written fl (.dict (fields ms))).render .compact ++ ['\n']) := by
    rw [Journal.appendEvent, hline]
  rw [happend]
  refine ⟨ev, hget, Or.inr ⟨_, (List.append_assoc ..).symm⟩, ?_⟩
  rw [Journal.readLedger_line_closed hc hline,
    show decode fl (written fl (.dict (fields ms))) = .dict ev from hkept]

end Append

namespace Journaled

variable {B O A : Type} (J : Journaled B O A) (fl : Floats ℚ)

/-- The book after the events of this file. -/
def opened (file : List Char) : Option B := (Journal.readLedger fl file).foldlM J.replay J.fresh

/-- A book and the file of its journal. -/
def program : Program (B × List Char) O A where
  step σ o :=
    let (action, book) := J.observe σ.1 o
    (action, book, Journal.appendEvent fl σ.2 (fields (J.event σ.1 o)))
  restart σ := (J.opened fl σ.2).map fun book => (book, σ.2)

structure Faithful : Prop where
  names : ∀ b o, ((J.event b o).map Prod.fst).Nodup
  plain : ∀ b o, ∀ m ∈ J.event b o, m.2.Plain fl
  replay : ∀ b o ev, (∀ name, get? ev name = (J.event b o).lookup name) →
    J.replay b (.dict ev) = some (J.observe b o).2

/-- The file is ended lines, and the book is the one it makes. -/
structure Synced (σ : B × List Char) : Prop where
  closed : Closed σ.2
  opened : J.opened fl σ.2 = some σ.1

variable {J fl}

theorem synced_fresh : J.Synced fl (J.fresh, []) := ⟨Or.inl rfl, rfl⟩

/-- An observation appends one event, which reads back with the fields that were written. -/
theorem appended (hf : J.Faithful fl) {file : List Char} (hc : Closed file) (b : B) (o : O) :
    ∃ ev, (∀ name, get? ev name = (J.event b o).lookup name) ∧
      Closed (Journal.appendEvent fl file (fields (J.event b o))) ∧
      Journal.readLedger fl (Journal.appendEvent fl file (fields (J.event b o))) =
        Journal.readLedger fl file ++ [.dict ev] := by
  obtain ⟨line, hline⟩ := dumps_fields .compact (hf.plain b o)
  obtain ⟨ev, hkept, hget⟩ := kept_record (hf.names b o) (hf.plain b o)
  have happend : Journal.appendEvent fl file (fields (J.event b o)) = file ++ (line ++ ['\n']) := by
    rw [Journal.appendEvent, Journal.line, hline]
  rw [happend]
  refine ⟨ev, hget, Or.inr ⟨file ++ line, (List.append_assoc ..).symm⟩, ?_⟩
  rw [Journal.readLedger_line_closed hc hline,
    show decode fl (written fl (.dict (fields (J.event b o)))) = .dict ev from hkept]

theorem Synced.step (hf : J.Faithful fl) {σ : B × List Char} (h : J.Synced fl σ) (o : O) :
    J.Synced fl ((J.program fl).step σ o).2 := by
  obtain ⟨ev, hget, hclosed, hread⟩ := appended hf h.closed σ.1 o
  have hopened : (Journal.readLedger fl σ.2).foldlM J.replay J.fresh = some σ.1 := h.opened
  refine ⟨hclosed, ?_⟩
  show J.opened fl (Journal.appendEvent fl σ.2 (fields (J.event σ.1 o))) = some (J.observe σ.1 o).2
  rw [Journaled.opened, hread, List.foldlM_append, hopened]
  exact (bind_pure _).trans (hf.replay σ.1 o ev hget)

theorem restartable (hf : J.Faithful fl) : (J.program fl).Restartable (J.Synced fl) where
  step h o := h.step hf o
  restart h := by
    show (J.opened fl _).map _ = _
    rw [h.opened]
    rfl

end Journaled

end Shadow

end TreasuryForge

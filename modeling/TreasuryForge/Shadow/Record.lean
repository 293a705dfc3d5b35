/-
# `Shadow.Record` — the track record read off a ledger

What `_load` of the broker's scripts makes of one directory: the returns of its events of one kind,
and the times of those that have one.  `Recorded.append` is what one more event adds.
-/
import TreasuryForge.Shadow.Journaled

namespace TreasuryForge

namespace Shadow

open JsonText Lines

variable (fl : Floats ℚ) (kind : String)

/-- `int(e.get("ts", 0))` if `e.get("ts")`; fails where it raises. -/
def timeOf (ev : List (Key ℚ × Val ℚ)) : Option (Option ℤ) :=
  match get? ev "ts" with
  | Option.none => some Option.none
  | some v => if v.toBool then v.toInt.map some else some Option.none

/-- The return and the time of an event, if it is of the kind; fails where it raises. -/
def entryOf : Val ℚ → Option (Option (ℚ × Option ℤ))
  | .dict ev =>
      if isKind ev kind then do
        let r ← (get? ev "r").bind Val.toFloat
        let ts ← timeOf ev
        return some (r, ts)
      else some Option.none
  | _ => Option.none

/-- The returns and the times, of one directory. -/
def readRecord (file : List Char) : Option (List ℚ × List ℤ) := do
  let entries ← (Journal.readLedger fl file).mapM (entryOf kind)
  let entries := entries.filterMap id
  return (entries.map Prod.fst, entries.filterMap Prod.snd)

/-- Events at these times with these returns. -/
abbrev Entries := List (ℚ × ℤ)

/-- A time of zero counts as none. -/
def Entries.record (es : Entries) : List ℚ × List ℤ :=
  (es.map Prod.fst, (es.map Prod.snd).filter (· ≠ 0))

/-- The ledger is ended lines, from which these entries are read. -/
structure Recorded (file : List Char) (es : Entries) : Prop where
  closed : Closed file
  entries : ∃ rows, (Journal.readLedger fl file).mapM (entryOf kind) = some rows ∧
    rows.filterMap id = es.map fun e => (e.1, if e.2 ≠ 0 then some e.2 else Option.none)

variable {fl kind} {file : List Char} {es : Entries}

theorem recorded_empty : Recorded fl kind [] [] := ⟨Or.inl rfl, [], rfl, rfl⟩

theorem Recorded.read (h : Recorded fl kind file es) :
    readRecord fl kind file = some es.record := by
  obtain ⟨rows, hrows, hentries⟩ := h.entries
  have htimes : ∀ es : Entries,
      (es.map fun e => (e.1, if e.2 ≠ 0 then some e.2 else Option.none)).filterMap Prod.snd =
        (es.map Prod.snd).filter (· ≠ 0) := by
    intro es
    induction es with
    | nil => rfl
    | cons e es ih =>
        simp only [List.map_cons, List.filterMap_cons, List.filter_cons, ih]
        by_cases he : e.2 = 0
        · simp [he]
        · simp [he]
  rw [readRecord, hrows]
  show some ((rows.filterMap id).map Prod.fst, (rows.filterMap id).filterMap Prod.snd) = _
  rw [hentries, htimes, List.map_map]
  rfl

/-- One more event of the kind. -/
theorem Recorded.append (h : Recorded fl kind file es) {ms : List (String × Val ℚ)} {r : ℚ} {ts : ℤ}
    (hn : (ms.map Prod.fst).Nodup) (he : ∀ m ∈ ms, m.2.encodable fl = true)
    (hkind : ms.lookup "kind" = some (.str (Str.of kind)))
    (hr : ms.lookup "r" = some (.float r)) (hts : ms.lookup "ts" = some (.int ts)) :
    Recorded fl kind (Journal.appendEvent fl file (fields ms)) (es ++ [(r, ts)]) := by
  obtain ⟨rows, hrows, hentries⟩ := h.entries
  obtain ⟨ev, hget, hclosed, hread⟩ := read_appended hn he h.closed
  have hkind' : get? ev "kind" = some (.str (Str.of kind)) := by
    rw [hget, hkind]
    exact congrArg some (plain_text _).kept
  have hr' : get? ev "r" = some (.float r) := by
    rw [hget, hr]
    exact congrArg some (plain_float _).kept
  have hts' : get? ev "ts" = some (.int ts) := by
    rw [hget, hts]
    exact congrArg some (plain_int _).kept
  have hentry : entryOf kind (.dict ev) =
      some (some (r, if ts ≠ 0 then some ts else Option.none)) := by
    by_cases hzero : ts = 0
    · simp [entryOf, isKind, hkind', hr', timeOf, hts', Val.toFloat, Val.toBool, hzero]
    · simp [entryOf, isKind, hkind', hr', timeOf, hts', Val.toFloat, Val.toBool, Val.toInt, hzero]
  refine ⟨hclosed, rows ++ [some (r, if ts ≠ 0 then some ts else Option.none)], ?_, ?_⟩
  · rw [hread]
    simp [List.mapM_append, hrows, hentry]
  · rw [List.filterMap_append, hentries, List.map_append]
    rfl

end Shadow

end TreasuryForge

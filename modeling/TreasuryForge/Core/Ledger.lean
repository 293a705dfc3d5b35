/-
# `Core.Ledger` — the journal's event file, byte by byte

`append_event` and `read_ledger` of `treasuryforge/journal.py`, on the text of the file.  An
append writes one line; the process may be killed when any part of it is in the file, and the
next process appends from there.  A line is printable ASCII, so its bytes are its characters.

A line that is broken off is no JSON text and is skipped when the file is read.  But the next
append goes on in the same line, and what comes of that is not its event: the append is lost,
and of two parts of a line that happen to fit, an event is read that nobody appended
(`Careful` excludes both).  `nothing_lost` is about every history without these.
-/
import TreasuryForge.Base.JsonLines
import TreasuryForge.Base.Window

namespace TreasuryForge

namespace Journal

open JsonText Lines

variable {F : Type} (fl : Floats F)

/-- `json.dumps(event, separators=(",", ":"), sort_keys=True)`. -/
def line (event : List (Key F × Val F)) : Option (List Char) := dumps fl .compact (.dict event)

/-- A call that completed leaves the line and its line feed; one that raised, nothing. -/
def appendEvent (file : List Char) (event : List (Key F × Val F)) : List Char :=
  match line fl event with
  | none => file
  | some l => file ++ (l ++ ['\n'])

/-- Every record of the file that is a JSON text. -/
def readLedger (file : List Char) : List (Val F) := (records file).filterMap (loads fl)

/-- How far a call of `append_event` got: the process died when so many bytes of the line were
in the file, or it completed. -/
inductive Outcome where
  | completed
  | torn (bytes : ℕ)
  deriving DecidableEq

structure Attempt (F : Type) where
  event : List (Key F × Val F)
  outcome : Outcome

namespace Attempt

variable (a : Attempt F)

/-- What the call leaves in the file. -/
def chunk : List Char :=
  match line fl a.event, a.outcome with
  | none, _ => []
  | some l, .completed => l ++ ['\n']
  | some l, .torn n => (l ++ ['\n']).take n

def returned : Bool := a.outcome = .completed && (line fl a.event).isSome

/-- The whole text of the event is in the file. -/
def whole : Bool :=
  match line fl a.event, a.outcome with
  | none, _ => false
  | some _, .completed => true
  | some l, .torn n => l.length ≤ n

/-- The event, as JSON keeps it. -/
def value : Val F := decode fl (written fl (.dict a.event))

end Attempt

/-- The file after these calls, each in the process that found it so. -/
def file (history : List (Attempt F)) : List Char := history.flatMap (Attempt.chunk fl)

/-- The events that are read are those of `keep`: calls whose whole text is in the file, in
order, and among them all that returned. -/
structure Keeps (keep history : List (Attempt F)) : Prop where
  sublist : keep.Sublist history
  whole : ∀ a ∈ keep, a.whole fl = true
  returned : keep.filter (Attempt.returned fl) = history.filter (Attempt.returned fl)

def LosesNothing (history : List (Attempt F)) : Prop :=
  ∃ keep, Keeps fl keep history ∧ readLedger fl (file fl history) = keep.map (Attempt.value fl)

/-- What a call has to find: it completes only at the beginning of a line, and if it dies in a
line that is begun, that line is no JSON text then. -/
def Careful (history : List (Attempt F)) (a : Attempt F) : Prop :=
  a.chunk fl = [] ∨ lastLine (file fl history) = [] ∨
    a.outcome ≠ .completed ∧
      scan (strip (lastLine (file fl history) ++ a.chunk fl)) = none

variable {fl}

/-! ## Reading -/

theorem readLedger_closed {file : List Char} (h : Closed file) (cs : List Char) :
    readLedger fl (file ++ cs) = readLedger fl file ++ readLedger fl cs := by
  rw [readLedger, records_closed h, List.filterMap_append]
  rfl

/-- A line that is not ended is read if it is a JSON text. -/
theorem readLedger_line {cs : List Char} (h : ∀ c ∈ cs, isLineEnd c = false) :
    readLedger fl cs = (loads fl (strip cs)).toList := by
  rw [readLedger, records_line h, record]
  split
  · next hs =>
      rw [hs]
      rfl
  · rw [List.filterMap_cons]
    cases loads fl (strip cs) <;> rfl

theorem readLedger_ended (cs : List Char) :
    readLedger fl (cs ++ ['\n']) = readLedger fl cs := by
  rw [readLedger, records_append, records_nil, List.append_nil, readLedger]

/-- An event that is appended to ended lines is read after theirs. -/
theorem readLedger_line_closed {file l : List Char} {event : List (Key F × Val F)}
    (hc : Closed file) (hl : line fl event = some l) : readLedger fl (file ++ (l ++ ['\n'])) =
      readLedger fl file ++ [decode fl (written fl (.dict event))] := by
  rw [readLedger_closed hc, readLedger_ended, readLedger_line (dumps_unended hl), strip_dumps hl,
    loads, scan_dumps hl]
  rfl

/-! ## A history of calls -/

namespace Keeps

variable {keep history : List (Attempt F)} {a : Attempt F}

theorem skip (h : Keeps fl keep history) (ha : a.returned fl = false) :
    Keeps fl keep (history ++ [a]) where
  sublist := h.sublist.trans (List.sublist_append_left _ _)
  whole := h.whole
  returned := by
    rw [List.filter_append, List.filter_singleton, ha, h.returned]
    exact (List.append_nil _).symm

theorem take (h : Keeps fl keep history) (ha : a.whole fl = true) :
    Keeps fl (keep ++ [a]) (history ++ [a]) where
  sublist := h.sublist.append_right [a]
  whole b hb := by
    rcases List.mem_append.mp hb with hb | hb
    · exact h.whole b hb
    · rw [List.mem_singleton.mp hb]
      exact ha
  returned := by
    rw [List.filter_append, List.filter_append, h.returned]

end Keeps

variable (fl) in
/-- The file is ended lines, which are read as `keep`, and a tail, which is not read or is the
text of one more event. -/
structure Parts (history : List (Attempt F)) (ended tail : List Char) (keep : List (Attempt F)) :
    Prop where
  split : file fl history = ended ++ tail
  closed : Closed ended
  unended : ∀ c ∈ tail, isLineEnd c = false
  keeps : Keeps fl keep history
  read : readLedger fl ended = keep.map (Attempt.value fl)
  tail : scan (strip tail) = none ∨
    ∃ a, loads fl (strip tail) = some (a.value fl) ∧ Keeps fl (keep ++ [a]) history

namespace Parts

variable {history : List (Attempt F)} {ended tail : List Char} {keep : List (Attempt F)}
  {a : Attempt F}

theorem losesNothing (h : Parts fl history ended tail keep) : LosesNothing fl history := by
  have hread : readLedger fl (file fl history) =
      keep.map (Attempt.value fl) ++ (loads fl (strip tail)).toList := by
    rw [h.split, readLedger_closed h.closed, h.read, readLedger_line h.unended]
  rcases h.tail with hnone | ⟨a, hsome, hkeeps⟩
  · refine ⟨keep, h.keeps, ?_⟩
    rw [hread, loads, hnone]
    exact List.append_nil _
  · refine ⟨keep ++ [a], hkeeps, ?_⟩
    rw [hread, hsome, List.map_append]
    rfl

theorem file_snoc (history : List (Attempt F)) (a : Attempt F) :
    file fl (history ++ [a]) = file fl history ++ a.chunk fl := by
  rw [file, List.flatMap_append, List.flatMap_singleton]
  rfl

/-- A call that leaves nothing. -/
theorem nothing (h : Parts fl history ended tail keep) (ha : a.chunk fl = [])
    (hr : a.returned fl = false) : Parts fl (history ++ [a]) ended tail keep where
  split := by rw [file_snoc, ha, List.append_nil, h.split]
  closed := h.closed
  unended := h.unended
  keeps := h.keeps.skip hr
  read := h.read
  tail := h.tail.imp id fun ⟨b, hb, hk⟩ => ⟨b, hb, hk.skip hr⟩

/-- A line of its own, with its line feed. -/
theorem ended_line (h : Parts fl history ended [] keep) {l : List Char}
    (hl : line fl a.event = some l) (ha : a.chunk fl = l ++ ['\n']) (hw : a.whole fl = true) :
    Parts fl (history ++ [a]) (ended ++ (l ++ ['\n'])) [] (keep ++ [a]) where
  split := by rw [file_snoc, ha, h.split, List.append_nil, List.append_nil]
  closed := Or.inr ⟨ended ++ l, (List.append_assoc ..).symm⟩
  unended := fun c hc => absurd hc List.not_mem_nil
  keeps := h.keeps.take hw
  read := by
    rw [readLedger_line_closed h.closed hl, h.read, List.map_append]
    rfl
  tail := Or.inl rfl

/-- A part of a line, where a line begins. -/
theorem torn_line (h : Parts fl history ended [] keep) {l p : List Char}
    (hl : line fl a.event = some l) (ha : a.chunk fl = p) (hp : p <+: l) (hne : p ≠ [])
    (hw : p = l → a.whole fl = true) (hr : a.returned fl = false) :
    Parts fl (history ++ [a]) ended p keep where
  split := by rw [file_snoc, ha, h.split, List.append_nil]
  closed := h.closed
  unended c hc := dumps_unended hl c (hp.subset hc)
  keeps := h.keeps.skip hr
  read := h.read
  tail := by
    by_cases he : p = l
    · subst he
      refine Or.inr ⟨a, ?_, h.keeps.take (hw rfl)⟩
      rw [strip_dumps hl, loads, scan_dumps hl]
      rfl
    · exact Or.inl (scan_torn hl hp hne he)

/-- A part of a line, where a line is begun. -/
theorem torn_on (h : Parts fl history ended tail keep) {p : List Char}
    (ha : a.chunk fl = p) (hp : ∀ c ∈ p, isLineEnd c = false) (hs : scan (strip (tail ++ p)) = none)
    (hr : a.returned fl = false) : Parts fl (history ++ [a]) ended (tail ++ p) keep where
  split := by rw [file_snoc, ha, h.split, List.append_assoc]
  closed := h.closed
  unended c hc := (List.mem_append.mp hc).elim (h.unended c) (hp c)
  keeps := h.keeps.skip hr
  read := h.read
  tail := Or.inl hs

/-- A line and its line feed, where a line is begun. -/
theorem ended_on (h : Parts fl history ended tail keep) {l : List Char}
    (ha : a.chunk fl = l ++ ['\n']) (hl : ∀ c ∈ l, isLineEnd c = false)
    (hs : scan (strip (tail ++ (l ++ ['\n']))) = none) (hr : a.returned fl = false) :
    Parts fl (history ++ [a]) (ended ++ (tail ++ (l ++ ['\n']))) [] keep where
  split := by rw [file_snoc, ha, h.split, List.append_assoc, List.append_nil]
  closed := Or.inr ⟨ended ++ (tail ++ l), by simp only [List.append_assoc]⟩
  unended := fun c hc => absurd hc List.not_mem_nil
  keeps := h.keeps.skip hr
  read := by
    have hline : ∀ c ∈ tail ++ l, isLineEnd c = false := fun c hc =>
      (List.mem_append.mp hc).elim (h.unended c) (hl c)
    rw [← List.append_assoc, strip_append_blank (by decide)] at hs
    rw [readLedger_closed h.closed, ← List.append_assoc tail, readLedger_ended,
      readLedger_line hline, loads, hs, h.read]
    exact List.append_nil _
  tail := Or.inl rfl

/-- Any call that is careful. -/
theorem step (h : Parts fl history ended tail keep) (hc : Careful fl history a) :
    ∃ ended' tail' keep', Parts fl (history ++ [a]) ended' tail' keep' := by
  have hlast : lastLine (file fl history) = tail := by
    rw [h.split]
    exact lastLine_closed h.closed h.unended
  rw [Careful, hlast] at hc
  obtain ⟨event, outcome⟩ := a
  cases hl : line fl event with
  | none =>
      refine ⟨_, _, _, h.nothing ?_ ?_⟩
      · simp only [Attempt.chunk, hl]
      · simp [Attempt.returned, hl]
  | some l =>
      cases outcome with
      | completed =>
          have hchunk : Attempt.chunk fl ⟨event, .completed⟩ = l ++ ['\n'] := by
            simp only [Attempt.chunk, hl]
          have htail : tail = [] := by
            rcases hc with hc | hc | ⟨hne, -⟩
            · rw [hchunk] at hc
              simp at hc
            · exact hc
            · exact absurd rfl hne
          subst htail
          exact ⟨_, _, _, h.ended_line hl hchunk (by simp only [Attempt.whole, hl])⟩
      | torn n =>
          have hr : Attempt.returned fl ⟨event, .torn n⟩ = false := rfl
          have hchunk : Attempt.chunk fl ⟨event, .torn n⟩ = (l ++ ['\n']).take n := by
            simp only [Attempt.chunk, hl]
          have hwhole : Attempt.whole fl ⟨event, .torn n⟩ = decide (l.length ≤ n) := by
            simp only [Attempt.whole, hl]
          rcases Nat.lt_or_ge l.length n with hn | hn
          · -- the line feed is there as well
            have hfull : (l ++ ['\n']).take n = l ++ ['\n'] := by
              apply List.take_of_length_le
              simp only [List.length_append, List.length_singleton]
              omega
            rw [hfull] at hchunk
            rcases hc with hc | hc | ⟨-, hs⟩
            · rw [hchunk] at hc
              simp at hc
            · subst hc
              exact ⟨_, _, _, h.ended_line hl hchunk (by rw [hwhole]; simpa using hn.le)⟩
            · rw [hchunk] at hs
              exact ⟨_, _, _, h.ended_on hchunk (dumps_unended hl) hs hr⟩
          · rw [List.take_append_of_le_length hn] at hchunk
            have hp : l.take n <+: l := List.take_prefix _ _
            rcases hc with hc | hc | ⟨-, hs⟩
            · exact ⟨_, _, _, h.nothing hc hr⟩
            · subst hc
              by_cases hne : l.take n = []
              · exact ⟨_, _, _, h.nothing (hchunk.trans hne) hr⟩
              · refine ⟨_, _, _, h.torn_line hl hchunk hp hne (fun he => ?_) hr⟩
                rw [hwhole]
                simpa using List.take_eq_self_iff l |>.mp he
            · rw [hchunk] at hs
              exact ⟨_, _, _, h.torn_on hchunk (fun c hc => dumps_unended hl c (hp.subset hc)) hs hr⟩

end Parts

instance (history : List (Attempt F)) (a : Attempt F) : Decidable (Careful fl history a) :=
  decidable_of_iff
    (a.chunk fl = [] ∨ lastLine (file fl history) = [] ∨
      a.outcome ≠ .completed ∧
        (scan (strip (lastLine (file fl history) ++ a.chunk fl))).isNone = true)
    (by rw [Careful, Option.isNone_iff_eq_none])

/-- The event `{"n": n}`. -/
def numbered (n : ℤ) : List (Key Unit × Val Unit) := [(.str (Str.ofChars ['n']), .int n)]

/-- Two calls return, with one between them that dies before its first byte, and one after them
in the middle of its line. -/
def tornAtEnd : List (Attempt Unit) :=
  [⟨numbered 1, .completed⟩, ⟨numbered 2, .torn 0⟩, ⟨numbered 3, .completed⟩,
    ⟨numbered 4, .torn 4⟩]

/-- The call that returns goes on in the line of the one that died. -/
def tornBefore : List (Attempt Unit) := [⟨numbered 1, .torn 4⟩, ⟨numbered 2, .completed⟩]

end Journal

end TreasuryForge

/-
# `Core.Audit` — the audit log and its check

`treasuryforge/audit.py`.  A record signs the previous MAC and the canonical text of its entry;
its line holds both and the MAC.  `verify_chain` reads the lines back and signs again, over the
canonical text of the entry as it was read; reading the file, and reading or writing the JSON in
it, may raise.

So an untouched log passes exactly when nothing raises, and reading an entry and writing it again
gives its canonical text (`untouched_iff`).  Sorting comes before the keys are made strings, and it
does when that leaves them in order: keys that are numbers may not be.
-/
import TreasuryForge.Base.HashChain
import TreasuryForge.Base.JsonLimits
import TreasuryForge.Base.JsonLines

namespace TreasuryForge

open JsonText Lines

namespace Audit

def genesis : List Char := List.replicate 64 '0'

def isHexDigit (c : Char) : Bool := c.isDigit || (0x61 ≤ c.toNat && c.toNat ≤ 0x66)

/-- HMAC-SHA256 under the log's key, in hexadecimal, as an ideal one: no two texts have the
same MAC, and none has the one that stands for the beginning of a log. -/
structure Hmac where
  hex : List Char → List Char
  digits : ∀ m, ∀ c ∈ hex m, isHexDigit c = true
  nonempty : ∀ m, hex m ≠ []
  injective : Function.Injective hex
  fresh : ∀ m, hex m ≠ genesis

variable {F : Type} (fl : Floats F) (limits : Limits F) (h : Hmac)

/-- `_canonical`. -/
def canonical (entry : Val F) : Option (List Char) := dumps fl .compact entry

/-- An `AuditLog`: the text at its path, and the MAC of the last record. -/
structure AuditLog where
  file : List Char := []
  prev : List Char := genesis

/-- The dictionary of a line. -/
def recordItems (prev : List Char) (entry : List (Key F × Val F)) (mac : List Char) :
    List (Key F × Val F) :=
  [(.str (Str.of "prev"), .str (Str.ofChars prev)), (.str (Str.of "entry"), .dict entry),
    (.str (Str.of "hmac"), .str (Str.ofChars mac))]

/-- `AuditLog.record`; fails on an entry that `json.dumps` refuses.  An interpreter with limits
refuses more of them. -/
def AuditLog.record (log : AuditLog) (entry : List (Key F × Val F)) : Option AuditLog :=
  (canonical fl (.dict entry)).bind fun payload =>
    let mac := h.hex (log.prev ++ payload)
    (dumps fl .compact (.dict (recordItems log.prev entry mac))).map fun line =>
      ⟨log.file ++ (line ++ ['\n']), mac⟩

/-- `AuditLog(path, key, prev_hash)`, on a path with this text. -/
def AuditLog.opened (file prev : List Char) : AuditLog := ⟨file, prev⟩

/-- Sessions one after the other, each an `AuditLog` that starts from the MAC the one before it
ended with. -/
def recorded (sessions : List (List (List (Key F × Val F)))) : Option AuditLog :=
  sessions.foldlM (fun log entries =>
    entries.foldlM (AuditLog.record fl h) (AuditLog.opened log.file log.prev)) {}

/-! ## Checking -/

/-- What `verify_chain` raises: on a line that is no JSON text, one that is no object, a record
without an entry, and a MAC that is no ASCII string; where a limit is reached; and on a file that
cannot be read to its end. -/
inductive VerifyError where
  | jsonDecode
  | attribute
  | key
  | type
  | limit (reached : Limit)
  | read (failure : ReadFailure)
  deriving DecidableEq

/-- `str.isascii`. -/
def isAscii (s : Str) : Bool := s.all fun n => n.val < 128

/-- `hmac.compare_digest`, of a hexadecimal MAC and a value. -/
def compareDigest (mac : List Char) : Val F → Except VerifyError Bool
  | .str s => if isAscii s then .ok (s = Str.ofChars mac) else .error .type
  | _ => .error .type

/-- `_canonical`, of the entry of a line. -/
def canonicalWithin (entry : Val F) : Except VerifyError (List Char) :=
  match limits.writing entry with
  | some limit => .error (.limit limit)
  | none =>
      match canonical fl entry with
      | none => .error .type
      | some payload => .ok payload

/-- One line: the MAC to go on with, or none if the chain is broken here. -/
def checkLine (prev line : List Char) : Except VerifyError (Option (List Char)) :=
  match loadsWithin fl limits line with
  | .raised limit => .error (.limit limit)
  | .malformed => .error .jsonDecode
  | .value (.dict rec) =>
      match get? rec "prev" with
      | some (.str s) =>
          if s = Str.ofChars prev then
            match get? rec "entry" with
            | none => .error .key
            | some entry =>
                match canonicalWithin fl limits entry with
                | .error e => .error e
                | .ok payload =>
                    let mac := h.hex (prev ++ payload)
                    match compareDigest mac ((get? rec "hmac").getD (.str [])) with
                    | .error e => .error e
                    | .ok same => .ok (if same then some mac else none)
          else .ok none
      | _ => .ok none
  | .value _ => .error .attribute

/-- The lines, and what reading the next one fails with, if it does. -/
def checkLines (failure : Option ReadFailure) : List Char → List (List Char) →
    Except VerifyError Bool
  | _, [] =>
      match failure with
      | some failure => .error (.read failure)
      | none => .ok true
  | prev, line :: lines =>
      match checkLine fl limits h prev line with
      | .error e => .error e
      | .ok none => .ok false
      | .ok (some mac) => checkLines failure mac lines

/-- `verify_chain`, on the file at the path, if there is one. -/
def verifyChain (file : Option TextFile) : Except VerifyError Bool :=
  match file with
  | none => .ok true
  | some file => checkLines fl limits h file.failure genesis (records file.text)

/-! ## What is in the file -/

/-- The chain of MACs, over what the entries are written as. -/
def chain : HashChain.Chain (List Char) Tree where
  genesis := genesis
  link prev t := h.hex (prev ++ t.render .compact)

/-- The line of an entry that is written as `t`. -/
def lineOf (prev : List Char) (t : Tree) : List Char :=
  (Tree.obj [((Str.of "entry").units, t),
    ((Str.of "hmac").units, .str (Str.ofChars ((chain h).link prev t)).units),
    ((Str.of "prev").units, .str (Str.ofChars prev).units)]).render .compact

def linesOf (prev : List Char) : List Tree → List (List Char)
  | [] => []
  | t :: ts => lineOf h prev t :: linesOf ((chain h).link prev t) ts

def trees (entries : List (List (Key F × Val F))) : List Tree :=
  entries.map fun e => written fl (.dict e)

variable {fl limits h} {entry : List (Key F × Val F)} {entries : List (List (Key F × Val F))}
  {prev mac : List Char} {log log' : AuditLog}

variable (h prev) in
theorem dumps_recordItems {t : Tree} (ht : encode fl (.dict entry) = some t) :
    dumps fl .compact (.dict (recordItems prev entry ((chain h).link prev t))) =
      some (lineOf h prev t) := by
  have hitems : encodeItems fl (recordItems prev entry ((chain h).link prev t)) = some
      ([(Str.of "prev", .str (Str.ofChars prev).units), (Str.of "entry", t),
        (Str.of "hmac", .str (Str.ofChars ((chain h).link prev t)).units)].map fun m =>
          (Key.str m.1, m.2)) := by
    simp only [recordItems, encodeItems, encode] at ht ⊢
    rw [ht]
    rfl
  rw [dumps, encode, hitems, Option.bind_some, sortItems_str]
  rfl

theorem record_eq (hr : log.record fl h entry = some log') :
    encode fl (.dict entry) = some (written fl (.dict entry)) ∧
    log' = ⟨log.file ++ (lineOf h log.prev (written fl (.dict entry)) ++ ['\n']),
      (chain h).link log.prev (written fl (.dict entry))⟩ := by
  obtain ⟨payload, hpayload, hr⟩ := Option.bind_eq_some_iff.mp hr
  obtain ⟨t, ht, rfl⟩ := Option.map_eq_some_iff.mp hpayload
  obtain ⟨line, hline, rfl⟩ := Option.map_eq_some_iff.mp hr
  rw [written_eq ht]
  refine ⟨ht, ?_⟩
  have hl : some (lineOf h log.prev t) = some line :=
    (dumps_recordItems h log.prev ht).symm.trans hline
  rw [Option.some.inj hl]
  rfl

theorem foldlM_record (hr : entries.foldlM (AuditLog.record fl h) log = some log') :
    (∀ e ∈ entries, encode fl (.dict e) = some (written fl (.dict e))) ∧
    log'.file = log.file ++ (linesOf h log.prev (trees fl entries)).flatMap (· ++ ['\n']) ∧
    log'.prev = (trees fl entries).foldl (chain h).link log.prev := by
  induction entries generalizing log with
  | nil =>
      cases hr
      exact ⟨fun e he => absurd he List.not_mem_nil, (List.append_nil _).symm, rfl⟩
  | cons e entries ih =>
      rw [List.foldlM_cons] at hr
      obtain ⟨next, hnext, hr⟩ := Option.bind_eq_some_iff.mp hr
      obtain ⟨henc, rfl⟩ := record_eq hnext
      obtain ⟨hall, hfile, hprev⟩ := ih hr
      refine ⟨List.forall_mem_cons.mpr ⟨henc, hall⟩, ?_, hprev⟩
      rw [hfile, List.append_assoc]
      rfl

/-- Where a session ends does not show. -/
theorem recorded_flatten (sessions : List (List (List (Key F × Val F)))) :
    recorded fl h sessions = sessions.flatten.foldlM (AuditLog.record fl h) {} := by
  have hfold : ∀ log : AuditLog, sessions.foldlM (fun log entries =>
      entries.foldlM (AuditLog.record fl h) (AuditLog.opened log.file log.prev)) log =
        sessions.flatten.foldlM (AuditLog.record fl h) log := by
    induction sessions with
    | nil => exact fun _ => rfl
    | cons entries sessions ih =>
        intro log
        rw [List.foldlM_cons, List.flatten_cons, List.foldlM_append]
        exact congrArg (Option.bind _) (funext ih)
  exact hfold {}

theorem mem_linesOf {l : List Char} (hl : l ∈ linesOf h prev (trees fl entries)) :
    ∃ prev, ∃ e ∈ entries, l = lineOf h prev (written fl (.dict e)) := by
  induction entries generalizing prev with
  | nil => exact absurd hl List.not_mem_nil
  | cons e entries ih =>
      rcases List.mem_cons.mp hl with rfl | hl
      · exact ⟨prev, e, List.mem_cons_self, rfl⟩
      · obtain ⟨p, e', he', rfl⟩ := ih hl
        exact ⟨p, e', List.mem_cons_of_mem e he', rfl⟩

variable {sessions : List (List (List (Key F × Val F)))}

theorem recorded_eq (hr : recorded fl h sessions = some log) :
    (∀ e ∈ sessions.flatten, encode fl (.dict e) = some (written fl (.dict e))) ∧
    records log.file = linesOf h genesis (trees fl sessions.flatten) ∧
    log.prev = (chain h).head (trees fl sessions.flatten) := by
  rw [recorded_flatten] at hr
  obtain ⟨hall, hfile, hprev⟩ := foldlM_record hr
  refine ⟨hall, ?_, hprev⟩
  rw [hfile, List.nil_append]
  refine records_flatMap ?_
  intro l hl
  obtain ⟨prev, e, he, rfl⟩ := mem_linesOf hl
  have hd := dumps_recordItems h prev (hall e he)
  obtain ⟨cs, hcs⟩ := dumps_braces hd
  exact ⟨dumps_unended hd, strip_dumps hd, fun hnil => List.cons_ne_nil _ _ (hcs.symm.trans hnil)⟩

/-! ## An untouched log -/

theorem hex_ascii (m : List Char) : isAscii (Str.ofChars (h.hex m)) = true := by
  refine List.all_eq_true.mpr ?_
  intro n hn
  obtain ⟨c, hc, rfl⟩ := List.mem_map.mp hn
  have hdigit := h.digits m c hc
  have hlt : c.toNat < 128 := by
    simp only [isHexDigit, Char.isDigit, Bool.or_eq_true, Bool.and_eq_true,
      decide_eq_true_eq] at hdigit
    rcases hdigit with ⟨-, hd⟩ | ⟨-, hd⟩
    · exact lt_of_le_of_lt hd (by decide)
    · exact lt_of_le_of_lt hd (by decide)
  rw [decide_eq_true_eq, toNat_fin]
  exact hlt

theorem compareDigest_hex (mac m : List Char) :
    compareDigest (F := F) mac (.str (Str.ofChars (h.hex m))) = .ok (h.hex m = mac) := by
  rw [compareDigest, if_pos (hex_ascii m)]
  exact congrArg Except.ok (decide_eq_decide.mpr ofChars_injective.eq_iff)

theorem canonical_decode (t : Tree) :
    canonical fl (decode fl t) = some ((t.again fl).render .compact) := by
  rw [canonical, dumps, encode_decode]
  rfl

variable (fl h prev) in
/-- A recorded line is read as the dictionary it was made of, with the entry as JSON keeps it. -/
theorem loads_lineOf (t : Tree) : ∃ rec, loads fl (lineOf h prev t) = some (.dict rec) ∧
    get? rec "prev" = some (.str (Str.ofChars prev)) ∧ get? rec "entry" = some (decode fl t) ∧
    get? rec "hmac" = some (.str (Str.ofChars ((chain h).link prev t))) := by
  refine ⟨_, by rw [loads, lineOf, scan_render]; rfl, ?_⟩
  simp only [decodeMembers, decode]
  rw [Str.of, Str.of, Str.of, ofUnits_units_ofChars, ofUnits_units_ofChars, ofUnits_units_ofChars,
    ofUnits_units_ofChars, ofUnits_units_ofChars]
  exact ⟨rfl, rfl, rfl⟩

variable (fl limits) in
/-- No limit is reached reading the line, nor writing its entry again. -/
def Within (line : List Char) : Prop :=
  limits.reading line = none ∧ ∀ rec entry, loads fl line = some (.dict rec) →
    get? rec "entry" = some entry → limits.writing entry = none

theorem within_lineOf {t : Tree} : Within fl limits (lineOf h prev t) ↔
    limits.reading (lineOf h prev t) = none ∧ limits.writing (decode fl t) = none := by
  obtain ⟨rec, hloads, -, hentry, -⟩ := loads_lineOf fl h prev t
  refine and_congr_right fun _ => ⟨fun hall => hall rec _ hloads hentry, ?_⟩
  intro hwriting rec' entry hloads' hentry'
  obtain rfl := Val.dict.inj (Option.some.inj (hloads.symm.trans hloads'))
  obtain rfl := Option.some.inj (hentry.symm.trans hentry')
  exact hwriting

/-- It is accepted if its entry is written again as it was. -/
theorem checkLine_lineOf {t : Tree} (ht : t.Spelled fl)
    (hwithin : Within fl limits (lineOf h prev t)) :
    checkLine fl limits h prev (lineOf h prev t) =
      .ok (if t.ordered then some ((chain h).link prev t) else none) := by
  obtain ⟨hreading, hwriting⟩ := within_lineOf.mp hwithin
  obtain ⟨rec, hloads, hprev, hentry, hmac⟩ := loads_lineOf fl h prev t
  simp only [checkLine, loadsWithin_of_reading hreading hloads, hprev, hentry, hmac, if_true,
    canonicalWithin, hwriting, canonical_decode, Option.getD_some]
  rw [show (chain h).link prev t = h.hex (prev ++ t.render .compact) from rfl, compareDigest_hex]
  have hiff : h.hex (prev ++ t.render .compact) = h.hex (prev ++ (t.again fl).render .compact) ↔
      t.ordered = true := by
    rw [h.injective.eq_iff, List.append_cancel_left_eq, ← again_eq_iff fl ht]
    exact ⟨fun he => (render_inj he).symm, fun he => by rw [he]⟩
  by_cases ho : t.ordered = true
  · simp [ho, hiff.mpr ho]
  · simp [ho, mt hiff.mp ho]

/-- Where a limit is reached, the check raises. -/
theorem checkLine_limit {t : Tree} (hlimit : ¬ Within fl limits (lineOf h prev t)) :
    ∃ limit, checkLine fl limits h prev (lineOf h prev t) = .error (.limit limit) := by
  cases hreading : limits.reading (lineOf h prev t) with
  | some limit => exact ⟨limit, by simp only [checkLine, loadsWithin, hreading]⟩
  | none =>
      obtain ⟨rec, hloads, hprev, hentry, -⟩ := loads_lineOf fl h prev t
      have hwriting : limits.writing (decode fl t) ≠ none :=
        fun hwriting => hlimit (within_lineOf.mpr ⟨hreading, hwriting⟩)
      obtain ⟨limit, hwriting⟩ := Option.ne_none_iff_exists'.mp hwriting
      refine ⟨limit, ?_⟩
      simp only [checkLine, loadsWithin_of_reading hreading hloads, hprev, hentry, if_true,
        canonicalWithin, hwriting]

theorem checkLines_linesOf {ts : List Tree} (hts : ∀ t ∈ ts, t.Spelled fl) :
    checkLines fl limits h none prev (linesOf h prev ts) = .ok true ↔
      (∀ t ∈ ts, t.ordered = true) ∧ ∀ line ∈ linesOf h prev ts, Within fl limits line := by
  induction ts generalizing prev with
  | nil => exact iff_of_true rfl ⟨by simp, by simp [linesOf]⟩
  | cons t ts ih =>
      obtain ⟨ht, hrest⟩ := List.forall_mem_cons.mp hts
      rw [linesOf, checkLines, List.forall_mem_cons, List.forall_mem_cons]
      by_cases hwithin : Within fl limits (lineOf h prev t)
      · rw [checkLine_lineOf ht hwithin]
        cases hordered : t.ordered with
        | false => simp
        | true =>
            refine (ih hrest).trans ?_
            simp [hwithin]
      · obtain ⟨limit, heq⟩ := checkLine_limit hwithin
        rw [heq]
        simp [hwithin]

/-- The file that was recorded, in any number of sessions, passes exactly when the names of every
dictionary in it, at any depth, are written in the order of the strings they are read as, and no
limit is reached on a line of it. -/
theorem untouched_iff (limits : Limits F) (hr : recorded fl h sessions = some log) :
    verifyChain fl limits h (some ⟨log.file, none⟩) = .ok true ↔
      (∀ e ∈ sessions.flatten, (written fl (.dict e)).ordered = true) ∧
        ∀ line ∈ records log.file, Within fl limits line := by
  obtain ⟨hall, hfile, -⟩ := recorded_eq hr
  have hspelled : ∀ t ∈ trees fl sessions.flatten, t.Spelled fl := by
    intro t ht
    obtain ⟨e, he, rfl⟩ := List.mem_map.mp ht
    exact encode_spelled fl (hall e he)
  rw [verifyChain, hfile, checkLines_linesOf hspelled]
  exact and_congr_left fun _ => List.forall_mem_map

/-! ## Keys that are numbers -/

theorem flatMap_hexDigits_injective {us vs : List CodeUnit}
    (he : us.flatMap (fun u => (hexDigits u).map hexDigit) =
      vs.flatMap fun u => (hexDigits u).map hexDigit) : us = vs := by
  induction us generalizing vs with
  | nil =>
      cases vs with
      | nil => rfl
      | cons v vs => exact absurd (congrArg List.length he) (by simp [hexDigits])
  | cons u us ih =>
      cases vs with
      | nil => exact absurd (congrArg List.length he) (by simp [hexDigits])
      | cons v vs =>
          obtain ⟨hhead, htail⟩ := List.append_inj he (by simp [hexDigits])
          have hdigit : Function.Injective hexDigit := by
            intro d e hde
            exact Option.some.inj ((hexValue_hexDigit d).symm.trans
              ((congrArg hexValue hde).trans (hexValue_hexDigit e)))
          have huv := List.map_injective_iff.mpr hdigit hhead
          rw [ih htail, ← ofHexDigits_hexDigits u, huv, ofHexDigits_hexDigits]

theorem isHexDigit_hexDigit : ∀ d : Fin 16, isHexDigit (hexDigit d) = true := by decide

/-- A MAC that spells the text out. -/
def Hmac.spelled : Hmac where
  hex m := '1' :: (Str.ofChars m).units.flatMap fun u => (hexDigits u).map hexDigit
  digits m c hc := by
    rcases List.mem_cons.mp hc with rfl | hc
    · rfl
    · obtain ⟨u, -, hu⟩ := List.mem_flatMap.mp hc
      obtain ⟨d, -, rfl⟩ := List.mem_map.mp hu
      exact isHexDigit_hexDigit d
  nonempty m := List.cons_ne_nil _ _
  injective m m' he := by
    have hunits := flatMap_hexDigits_injective (List.cons.inj he).2
    refine ofChars_injective ?_
    rw [← ofUnits_units_ofChars m, hunits, ofUnits_units_ofChars]
  fresh m he := absurd (congrArg List.head? he) (by rw [genesis]; simp [List.replicate])

/-- The entry `{m: null, n: null}`. -/
def numberKeys (m n : ℤ) : List (Key Unit × Val Unit) := [(.int m, .none), (.int n, .none)]

/-- Two sessions. -/
def oneDigit : List (List (List (Key Unit × Val Unit))) := [[numberKeys 8 9], [numberKeys 9 8]]

theorem within_none {line : List Char} : Within fl .none line := ⟨rfl, fun _ _ _ _ => rfl⟩

theorem untouched_one_digit : ∃ log, recorded Floats.nan Hmac.spelled oneDigit = some log ∧
    verifyChain Floats.nan .none Hmac.spelled (some ⟨log.file, none⟩) = .ok true := by
  have hsome : (recorded Floats.nan Hmac.spelled oneDigit).isSome = true := by decide +kernel
  obtain ⟨log, hlog⟩ := Option.isSome_iff_exists.mp hsome
  refine ⟨log, hlog, (untouched_iff .none hlog).mpr ⟨by decide +kernel, fun _ _ => within_none⟩⟩

/-- The numbers are in order, and the strings are not. -/
theorem untouched_two_digits : ∃ log,
    recorded Floats.nan Hmac.spelled [[numberKeys 9 10]] = some log ∧
    verifyChain Floats.nan .none Hmac.spelled (some ⟨log.file, none⟩) = .ok false :=
  Option.map_eq_some_iff.mp (by decide +kernel : (recorded Floats.nan Hmac.spelled
    [[numberKeys 9 10]]).map (fun log =>
      verifyChain Floats.nan .none Hmac.spelled (some ⟨log.file, none⟩)) = some (.ok false))

end Audit

end TreasuryForge

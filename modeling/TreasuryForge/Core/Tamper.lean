/-
# `Core.Tamper` — what `verify_chain` sees of a changed file

Whoever changes the file has no key: every MAC in it that is of a text was in the recording
(`Unforged`).  A line is the record that comes next if it holds the previous MAC, an entry
that is written as the recorded one, and the recorded MAC (`IsRecord`); no limit is reached on it.

The check answers no exactly when there is a line in the file that is not the next record, and
the first such line is one that it can read (`tampering_found_iff`).  A file that only ends too
early has no such line, and passes if it can be read to its end (`passes_iff`); a line that the
check cannot read makes it raise.
-/
import TreasuryForge.Core.Audit

namespace TreasuryForge

namespace Audit

open JsonText Lines

/-! ## The chain binds -/

section Binding
variable {h : Hmac}

/-- The payload of an entry that is recorded. -/
def IsDict : Tree → Prop
  | .obj _ => True
  | _ => False

theorem head_digits (ts : List Tree) : ∀ c ∈ (chain h).head ts, isHexDigit c = true := by
  induction ts using List.reverseRecOn with
  | nil =>
      intro c hc
      rw [List.eq_of_mem_replicate hc]
      rfl
  | append_singleton ts t ih =>
      rw [HashChain.head_snoc]
      exact h.digits _

theorem render_dict {t : Tree} (ht : IsDict t) : ∃ cs, t.render .compact = '{' :: cs := by
  cases t with
  | obj ms =>
      obtain ⟨cs, hcs⟩ := render_obj_last .compact ms
      exact ⟨_, hcs⟩
  | _ => exact ht.elim

/-- A text that starts with a hexadecimal digit has no brace in it. -/
theorem no_brace {t : Tree} {c : Char} {cs : List Char} (hr : t.render .compact = c :: cs)
    (hc : isHexDigit c = true) : '{' ∉ t.render .compact := by
  cases t with
  | word w => cases w <;> simp [Tree.render, Word.text]
  | num n =>
      intro hb
      exact absurd (all_of_isNumber n.ok _ hb) (by decide)
  | str us =>
      rw [Tree.render, List.cons.injEq] at hr
      rw [← hr.1] at hc
      exact absurd hc (by decide)
  | arr ts =>
      cases ts with
      | nil =>
          rw [Tree.render, List.cons.injEq] at hr
          rw [← hr.1] at hc
          exact absurd hc (by decide)
      | cons t ts =>
          rw [Tree.render, List.cons.injEq] at hr
          rw [← hr.1] at hc
          exact absurd hc (by decide)
  | obj ms =>
      obtain ⟨ds, hds⟩ := render_dict (t := .obj ms) trivial
      rw [hds, List.cons.injEq] at hr
      rw [← hr.1] at hc
      exact absurd hc (by decide)

/-- Where the MAC before it ends and the payload begins can be told from the text. -/
theorem signed_inj {p q : List Char} (hp : ∀ c ∈ p, isHexDigit c = true)
    (hq : ∀ c ∈ q, isHexDigit c = true) {t u : Tree} (ht : IsDict t)
    (he : p ++ t.render .compact = q ++ u.render .compact) : p = q ∧ t = u := by
  obtain ⟨cs, hcs⟩ := render_dict ht
  rcases List.append_eq_append_iff.mp he with ⟨d, hd, hrest⟩ | ⟨d, hd, hrest⟩
  · cases d with
    | nil => exact ⟨by rw [hd, List.append_nil], render_inj hrest⟩
    | cons c d =>
        -- the payload of a recorded entry starts with a brace
        rw [hcs, List.cons_append, List.cons.injEq] at hrest
        have hdigit := hq c (by rw [hd]; simp)
        rw [← hrest.1] at hdigit
        exact absurd hdigit (by decide)
  · cases d with
    | nil => exact ⟨by rw [hd, List.append_nil], (render_inj hrest).symm⟩
    | cons c d =>
        -- and none that starts with a digit has one in it
        have hdigit := hp c (by rw [hd]; simp)
        refine absurd ?_ (no_brace hrest hdigit)
        rw [hrest, hcs]
        simp

theorem chain_binding (h : Hmac) : (chain h).Binding IsDict where
  fresh _ _ := h.fresh _
  inj ht he := signed_inj (head_digits _) (head_digits _) ht (h.injective he)

end Binding

/-! ## Records of a changed file -/

section Check
variable {F : Type} (fl : Floats F) (limits : Limits F) (h : Hmac)

/-- The line is the record of an entry written as `t`, after the records of `done`. -/
def IsRecord (done : List Tree) (t : Tree) (line : List Char) : Prop :=
  ∃ rec entry, loadsWithin fl limits line = .value (.dict rec) ∧
    get? rec "prev" = some (.str (Str.ofChars ((chain h).head done))) ∧
    get? rec "entry" = some entry ∧ limits.writing entry = none ∧
    canonical fl entry = some (t.render .compact) ∧
    get? rec "hmac" = some (.str (Str.ofChars ((chain h).head (done ++ [t]))))

/-- The line is an object, and one that does not follow `done`, or has an entry, and no MAC but
an ASCII string; no limit is reached reading the one and writing the other. -/
def Readable (done : List Tree) (line : List Char) : Prop :=
  ∃ rec, loadsWithin fl limits line = .value (.dict rec) ∧
    (get? rec "prev" = some (.str (Str.ofChars ((chain h).head done))) →
      (∃ entry, get? rec "entry" = some entry ∧ limits.writing entry = none) ∧
      ∀ v, get? rec "hmac" = some v → ∃ s, v = .str s ∧ isAscii s = true)

/-- A MAC in these lines that is of a text is one of the recording of `ts`. -/
def Unforged (ts : List Tree) (lines : List (List Char)) : Prop :=
  ∀ line ∈ lines, ∀ rec m, loads fl line = some (.dict rec) →
    get? rec "hmac" = some (.str (Str.ofChars (h.hex m))) →
      ∃ p, p <+: ts ∧ (chain h).head p = h.hex m

/-- After the records of `done`, the lines go on with records of `ts` as they come, up to one
that is not the next, and is readable. -/
inductive Departs (ts : List Tree) : List Tree → List (List Char) → Prop
  | here {done : List Tree} {line : List Char} {lines : List (List Char)} :
      Readable fl limits h done line →
      (∀ t, done ++ [t] <+: ts → ¬ IsRecord fl limits h done t line) →
      Departs ts done (line :: lines)
  | later {done : List Tree} {t : Tree} {line : List Char} {lines : List (List Char)} :
      done ++ [t] <+: ts → IsRecord fl limits h done t line → Departs ts (done ++ [t]) lines →
      Departs ts done (line :: lines)

/-- After the records of `done`, the lines are the next records of `ts`. -/
inductive Begins (ts : List Tree) : List Tree → List (List Char) → Prop
  | ended {done : List Tree} : Begins ts done []
  | record {done : List Tree} {t : Tree} {line : List Char} {lines : List (List Char)} :
      done ++ [t] <+: ts → IsRecord fl limits h done t line → Begins ts (done ++ [t]) lines →
      Begins ts done (line :: lines)

/-- The lines that are read of the file, if there is one. -/
def linesAt (file : Option TextFile) : List (List Char) :=
  (file.map fun file => records file.text).getD []

/-- What reading it fails with after them, if it does. -/
def failureAt (file : Option TextFile) : Option ReadFailure := file.bind (·.failure)

variable {fl limits h} {done ts : List Tree} {t : Tree} {line : List Char}
  {lines : List (List Char)}

theorem checkLine_record (hr : IsRecord fl limits h done t line) :
    checkLine fl limits h ((chain h).head done) line =
      .ok (some ((chain h).head (done ++ [t]))) := by
  obtain ⟨rec, entry, hloads, hprev, hentry, hwriting, hcanon, hmac⟩ := hr
  have hlink : h.hex ((chain h).head done ++ t.render .compact) = (chain h).head (done ++ [t]) :=
    (HashChain.head_snoc (chain h) done t).symm
  simp only [checkLine, hloads, hprev, hentry, canonicalWithin, hwriting, hcanon, hmac, if_true,
    Option.getD_some]
  rw [← hlink, compareDigest_hex]
  simp

/-- Whatever is read can be written. -/
theorem canonical_get {rec : List (Key F × Val F)} {name : String} {v : Val F}
    (hloads : loads fl line = some (.dict rec)) (hget : get? rec name = some v) :
    ∃ t : Tree, canonical fl v = some (t.render .compact) := by
  obtain ⟨m, hm, hv⟩ := List.exists_of_findSome?_eq_some hget
  have hmv : m.2 = v := by
    obtain ⟨k, w⟩ := m
    cases k with
    | str s =>
        dsimp only at hv
        split at hv
        · exact Option.some.inj hv
        · cases hv
    | _ => cases hv
  obtain ⟨tree, -, hdec⟩ := Option.map_eq_some_iff.mp hloads
  have hsome : (encode fl m.2).isSome = true := by
    cases tree with
    | obj ms =>
        rw [decode, Val.dict.injEq] at hdec
        rw [← hdec] at hm
        obtain ⟨n, hn, rfl⟩ := List.mem_map.mp hm
        exact (encode_decodeMembers fl ms).1 n (mem_of_mem_lastWins hn)
    | word w => cases w <;> cases hdec
    | num n =>
        rw [decode] at hdec
        split at hdec <;> cases hdec
    | str us => cases hdec
    | arr ts => cases hdec
  obtain ⟨t, ht⟩ := Option.isSome_iff_exists.mp hsome
  exact ⟨t, by rw [← hmv, canonical, dumps, ht]; rfl⟩

/-- A line that can be read is accepted only as a record. -/
theorem checkLine_readable (hr : Readable fl limits h done line) :
    (∃ t, IsRecord fl limits h done t line) ∨
      checkLine fl limits h ((chain h).head done) line = .ok none := by
  obtain ⟨rec, hloads, hread⟩ := hr
  by_cases hprev : get? rec "prev" = some (.str (Str.ofChars ((chain h).head done)))
  · obtain ⟨⟨entry, hentry, hwriting⟩, hmac⟩ := hread hprev
    obtain ⟨t, hcanon⟩ := canonical_get (loadsWithin_eq_value.mp hloads).2 hentry
    obtain ⟨s, hs, hascii⟩ : ∃ s, (get? rec "hmac").getD (.str []) = .str s ∧
        isAscii s = true := by
      cases hget : get? rec "hmac" with
      | none => exact ⟨[], rfl, rfl⟩
      | some v => exact hmac v hget
    simp only [checkLine, hloads, hprev, hentry, canonicalWithin, hwriting, hcanon, hs, if_true,
      compareDigest, hascii]
    by_cases hsame : s = Str.ofChars (h.hex ((chain h).head done ++ t.render .compact))
    · refine Or.inl ⟨t, rec, entry, hloads, hprev, hentry, hwriting, hcanon, ?_⟩
      rw [HashChain.head_snoc, show (chain h).link ((chain h).head done) t =
        h.hex ((chain h).head done ++ t.render .compact) from rfl, ← hsame, ← hs]
      cases hget : get? rec "hmac" with
      | none =>
          -- no MAC is empty
          rw [hget] at hs
          have hnil : Str.ofChars [] = s := Val.str.inj hs
          exact absurd (ofChars_injective (hnil.trans hsame)).symm (h.nonempty _)
      | some v => rfl
    · right
      simp [hsame]
  · right
    simp only [checkLine, hloads]
    split
    · next s hs =>
        rw [if_neg]
        rintro rfl
        exact hprev hs
    · rfl

theorem compareDigest_raises {mac : List Char} {v : Val F}
    (hv : ¬ ∃ s, v = .str s ∧ isAscii s = true) : compareDigest mac v = .error .type := by
  cases v with
  | str s => rw [compareDigest, if_neg fun hs => hv ⟨s, rfl, hs⟩]
  | _ => rfl

variable (fl) in
theorem canonicalWithin_error {entry : Val F} (h : limits.writing entry ≠ none) :
    ∃ e, canonicalWithin fl limits entry = .error e := by
  obtain ⟨limit, hwriting⟩ := Option.ne_none_iff_exists'.mp h
  exact ⟨_, by rw [canonicalWithin, hwriting]⟩

theorem checkLine_unreadable (hr : ¬ Readable fl limits h done line) :
    ∃ e, checkLine fl limits h ((chain h).head done) line = .error e := by
  unfold checkLine
  split
  · exact ⟨_, rfl⟩
  · exact ⟨_, rfl⟩
  · next rec hloads =>
      split
      · next s hprev =>
          split
          · next hs =>
              subst hs
              split
              · exact ⟨_, rfl⟩
              · next entry hentry =>
                  by_cases hwriting : limits.writing entry = none
                  · have hmac : ¬ ∀ v, get? rec "hmac" = some v →
                        ∃ s, v = .str s ∧ isAscii s = true :=
                      fun hall => hr ⟨rec, hloads, fun _ => ⟨⟨entry, hentry, hwriting⟩, hall⟩⟩
                    obtain ⟨v, hv⟩ := not_forall.mp hmac
                    obtain ⟨hget, hv⟩ := Classical.not_imp.mp hv
                    split
                    · exact ⟨_, rfl⟩
                    · simp only [hget, Option.getD_some, compareDigest_raises hv]
                      exact ⟨_, rfl⟩
                  · obtain ⟨e, he⟩ := canonicalWithin_error fl hwriting
                    rw [he]
                    exact ⟨e, rfl⟩
          · next hs =>
              refine absurd ⟨rec, hloads, fun hp => absurd ?_ hs⟩ hr
              exact Val.str.inj (Option.some.inj (hprev.symm.trans hp))
      · next hprev => exact absurd ⟨rec, hloads, fun hp => absurd hp (hprev _)⟩ hr
  · exact ⟨_, rfl⟩

/-- A line is the record of one entry at most. -/
theorem isRecord_unique {u : Tree} (ht : IsRecord fl limits h done t line)
    (hu : IsRecord fl limits h done u line) : t = u := by
  obtain ⟨rec, entry, hloads, -, hentry, -, hcanon, -⟩ := ht
  obtain ⟨rec', entry', hloads', -, hentry', -, hcanon', -⟩ := hu
  obtain rfl := Val.dict.inj (Loaded.value.inj (hloads.symm.trans hloads'))
  obtain rfl := Option.some.inj (hentry.symm.trans hentry')
  exact render_inj (Option.some.inj (hcanon.symm.trans hcanon'))

theorem readable_record (hr : IsRecord fl limits h done t line) :
    Readable fl limits h done line := by
  by_contra hn
  obtain ⟨e, he⟩ := checkLine_unreadable hn
  rw [checkLine_record hr] at he
  cases he

/-- Whoever has only the recorded MACs has only the records, in their places. -/
theorem next_of_isRecord (hts : ∀ t ∈ ts, IsDict t) (hu : Unforged fl h ts (line :: lines))
    (hr : IsRecord fl limits h done t line) : done ++ [t] <+: ts := by
  obtain ⟨rec, entry, hloads, -, -, -, -, hmac⟩ := hr
  rw [HashChain.head_snoc] at hmac
  obtain ⟨p, hp, hhead⟩ := hu line List.mem_cons_self rec _
    (loadsWithin_eq_value.mp hloads).2 hmac
  exact HashChain.prefix_of_link (chain_binding h) hts hp hhead

theorem Unforged.tail (hu : Unforged fl h ts (line :: lines)) : Unforged fl h ts lines :=
  fun l hl => hu l (List.mem_cons_of_mem line hl)

/-- What the check does on a line: it goes on after the next record, stops at another line that it
can read, and raises on one that it cannot. -/
theorem checkLine_cases (hts : ∀ t ∈ ts, IsDict t) (hu : Unforged fl h ts (line :: lines)) :
    (∃ t, done ++ [t] <+: ts ∧ IsRecord fl limits h done t line ∧
      checkLine fl limits h ((chain h).head done) line =
        .ok (some ((chain h).head (done ++ [t])))) ∨
    (Readable fl limits h done line ∧ (∀ t, ¬ IsRecord fl limits h done t line) ∧
      checkLine fl limits h ((chain h).head done) line = .ok none) ∨
    (¬ Readable fl limits h done line ∧ (∀ t, ¬ IsRecord fl limits h done t line) ∧
      ∃ e, checkLine fl limits h ((chain h).head done) line = .error e) := by
  by_cases hread : Readable fl limits h done line
  · rcases checkLine_readable hread with ⟨t, ht⟩ | hbroken
    · exact Or.inl ⟨t, next_of_isRecord hts hu ht, ht, checkLine_record ht⟩
    · refine Or.inr (Or.inl ⟨hread, fun t ht => ?_, hbroken⟩)
      rw [checkLine_record ht] at hbroken
      cases hbroken
  · refine Or.inr (Or.inr ⟨hread, fun t ht => ?_, checkLine_unreadable hread⟩)
    exact hread (readable_record ht)

theorem checkLines_departs {failure : Option ReadFailure} (hts : ∀ t ∈ ts, IsDict t)
    (hu : Unforged fl h ts lines) :
    checkLines fl limits h failure ((chain h).head done) lines = .ok false ↔
      Departs fl limits h ts done lines := by
  induction lines generalizing done with
  | nil =>
      constructor
      · intro hfalse
        cases failure <;> cases hfalse
      · intro hd
        cases hd
  | cons line lines ih =>
      rw [checkLines]
      rcases checkLine_cases hts hu with
        ⟨t, hnext, ht, heq⟩ | ⟨hread, hnot, heq⟩ | ⟨hread, hnot, e, heq⟩
      · rw [heq]
        refine (ih hu.tail).trans ⟨Departs.later hnext ht, ?_⟩
        intro hd
        cases hd with
        | here _ hnot => exact absurd ht (hnot t hnext)
        | later _ ht' hd =>
            rw [isRecord_unique ht ht']
            exact hd
      · rw [heq]
        exact ⟨fun _ => Departs.here hread fun t _ => hnot t, fun _ => rfl⟩
      · rw [heq]
        constructor
        · intro hfalse
          cases hfalse
        · intro hd
          cases hd with
          | here hr _ => exact absurd hr hread
          | later _ ht _ => exact absurd ht (hnot _)

theorem checkLines_begins {failure : Option ReadFailure} (hts : ∀ t ∈ ts, IsDict t)
    (hu : Unforged fl h ts lines) :
    checkLines fl limits h failure ((chain h).head done) lines = .ok true ↔
      failure = none ∧ Begins fl limits h ts done lines := by
  induction lines generalizing done with
  | nil =>
      cases failure with
      | none => exact ⟨fun _ => ⟨rfl, Begins.ended⟩, fun _ => rfl⟩
      | some failure =>
          refine iff_of_false ?_ fun h => Option.some_ne_none _ h.1
          intro htrue
          cases htrue
  | cons line lines ih =>
      -- nothing begins with a line that is no record
      have hrefused {o : Except VerifyError Bool} (ho : o ≠ .ok true)
          (hnot : ∀ t, ¬ IsRecord fl limits h done t line) :
          o = .ok true ↔ failure = none ∧ Begins fl limits h ts done (line :: lines) := by
        refine iff_of_false ho ?_
        rintro ⟨-, hb⟩
        cases hb with
        | record _ ht _ => exact hnot _ ht
      rw [checkLines]
      rcases checkLine_cases hts hu with ⟨t, hnext, ht, heq⟩ | ⟨-, hnot, heq⟩ | ⟨-, hnot, e, heq⟩
      · rw [heq]
        refine (ih hu.tail).trans (and_congr_right fun _ => ⟨Begins.record hnext ht, ?_⟩)
        intro hb
        cases hb with
        | record _ ht' hb =>
            rw [isRecord_unique ht ht']
            exact hb
      · rw [heq]
        exact hrefused (by simp) hnot
      · rw [heq]
        exact hrefused (by simp) hnot

/-! ## A recording and a file -/

variable {sessions : List (List (List (Key F × Val F)))} {log : AuditLog}
  {file : Option TextFile}

theorem isDict_trees (hr : recorded fl h sessions = some log) :
    ∀ t ∈ trees fl sessions.flatten, IsDict t := by
  intro t ht
  obtain ⟨e, he, rfl⟩ := List.mem_map.mp ht
  obtain ⟨line, hline⟩ : ∃ line, dumps fl .compact (.dict e) = some line :=
    ⟨_, by rw [dumps, (recorded_eq hr).1 e he]; rfl⟩
  obtain ⟨ms, -, hw⟩ := dumps_dict hline
  rw [hw]
  trivial

theorem verifyChain_eq (file : Option TextFile) : verifyChain fl limits h file =
    checkLines fl limits h (failureAt file) ((chain h).head []) (linesAt file) := by
  cases file <;> rfl

/-- Of the files that hold no MAC but those of the recording, the ones the check finds broken are
those that depart from it, at a line that can be read. -/
theorem tampering_found_iff (limits : Limits F) (hr : recorded fl h sessions = some log)
    (hu : Unforged fl h (trees fl sessions.flatten) (linesAt file)) :
    verifyChain fl limits h file = .ok false ↔
      Departs fl limits h (trees fl sessions.flatten) [] (linesAt file) := by
  rw [verifyChain_eq]
  exact checkLines_departs (isDict_trees hr) hu

/-- And the ones it passes are the beginnings of the recording that can be read to their end. -/
theorem passes_iff (limits : Limits F) (hr : recorded fl h sessions = some log)
    (hu : Unforged fl h (trees fl sessions.flatten) (linesAt file)) :
    verifyChain fl limits h file = .ok true ↔ failureAt file = none ∧
      Begins fl limits h (trees fl sessions.flatten) [] (linesAt file) := by
  rw [verifyChain_eq]
  exact checkLines_begins (isDict_trees hr) hu

theorem lineOf_of_mem {rest : List Tree} (hl : line ∈ linesOf h ((chain h).head done) rest) :
    ∃ p t, p ++ [t] <+: done ++ rest ∧ line = lineOf h ((chain h).head p) t := by
  induction rest generalizing done with
  | nil => exact absurd hl List.not_mem_nil
  | cons t rest ih =>
      have happ : done ++ t :: rest = done ++ [t] ++ rest := by simp
      rcases List.mem_cons.mp hl with rfl | hl
      · exact ⟨done, t, by rw [happ]; exact List.prefix_append _ _, rfl⟩
      · rw [← HashChain.head_snoc] at hl
        rw [happ]
        exact ih hl

/-- Lines of the recording, whichever and in whatever order. -/
theorem unforged_of_recorded (hlines : ∀ line ∈ lines, line ∈ linesOf h genesis ts) :
    Unforged fl h ts lines := by
  intro line hline rec m hloads hmac
  have hmem : line ∈ linesOf h ((chain h).head []) ts := hlines line hline
  obtain ⟨done, t, hnext, rfl⟩ := lineOf_of_mem hmem
  obtain ⟨rec', hloads', -, -, hmac'⟩ := loads_lineOf fl h ((chain h).head done) t
  have hrec : rec = rec' := Val.dict.inj (Option.some.inj (hloads.symm.trans hloads'))
  subst hrec
  refine ⟨done ++ [t], hnext, ?_⟩
  rw [HashChain.head_snoc]
  exact ofChars_injective (Val.str.inj (Option.some.inj (hmac'.symm.trans hmac)))

end Check

/-- The canonical texts of the entries in these lines. -/
def entriesIn {F : Type} (fl : Floats F) (lines : List (List Char)) : List (Option (List Char)) :=
  lines.map fun line =>
    match loads fl line with
    | some (.dict rec) => (get? rec "entry").bind (canonical fl)
    | _ => none

/-- The file without its first record. -/
def withoutFirst (file : List Char) : List Char :=
  ((records file).drop 1).flatMap (· ++ ['\n'])

theorem first_deleted_found : ∃ log, recorded Floats.nan Hmac.spelled oneDigit = some log ∧
    Departs Floats.nan .none Hmac.spelled (trees Floats.nan oneDigit.flatten) []
      (linesAt (some ⟨withoutFirst log.file, none⟩)) := by
  have hsome : (recorded Floats.nan Hmac.spelled oneDigit).map (fun log =>
      (verifyChain Floats.nan .none Hmac.spelled (some ⟨withoutFirst log.file, none⟩),
        decide (records (withoutFirst log.file) ⊆ records log.file))) = some (.ok false, true) := by
    decide +kernel
  obtain ⟨log, hlog, hfile⟩ := Option.map_eq_some_iff.mp hsome
  obtain ⟨hfalse, hsub⟩ := Prod.mk.inj hfile
  have hlines : ∀ line ∈ linesAt (some ⟨withoutFirst log.file, none⟩),
      line ∈ linesOf Hmac.spelled genesis (trees Floats.nan oneDigit.flatten) := by
    intro line hline
    rw [← (recorded_eq hlog).2.1]
    exact of_decide_eq_true hsub hline
  exact ⟨log, hlog, (tampering_found_iff .none hlog (unforged_of_recorded hlines)).mp hfalse⟩

/-- All records are deleted, and the check passes; and it raises on a line that is no object. -/
theorem all_deleted_passes : ∃ log, recorded Floats.nan Hmac.spelled oneDigit = some log ∧
    (Unforged Floats.nan Hmac.spelled (trees Floats.nan oneDigit.flatten)
        (linesAt (some ⟨[], none⟩)) ∧
      entriesIn Floats.nan (linesAt (some ⟨[], none⟩)) ≠ entriesIn Floats.nan (records log.file) ∧
      verifyChain Floats.nan .none Hmac.spelled (some ⟨[], none⟩) = .ok true) ∧
    (Unforged Floats.nan Hmac.spelled (trees Floats.nan oneDigit.flatten)
        (linesAt (some ⟨['[', ']'], none⟩)) ∧
      verifyChain Floats.nan .none Hmac.spelled (some ⟨['[', ']'], none⟩) = .error .attribute) := by
  have hsome : (recorded Floats.nan Hmac.spelled oneDigit).map (fun log =>
      decide (entriesIn Floats.nan (linesAt (some ⟨[], none⟩)) ≠
        entriesIn Floats.nan (records log.file))) = some true := by
    decide +kernel
  obtain ⟨log, hlog, hdiff⟩ := Option.map_eq_some_iff.mp hsome
  have hempty : Unforged Floats.nan Hmac.spelled (trees Floats.nan oneDigit.flatten)
      (linesAt (some ⟨[], none⟩)) := fun line hline => absurd hline List.not_mem_nil
  refine ⟨log, hlog, ⟨hempty, of_decide_eq_true hdiff, rfl⟩, ?_, rfl⟩
  intro line hline rec m hloads
  rw [List.mem_singleton.mp (show line ∈ [['[', ']']] from hline)] at hloads
  cases hloads

end Audit

end TreasuryForge

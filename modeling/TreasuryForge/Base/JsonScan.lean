/-
# `Base.JsonScan` — the scanner reads back what is written

The scanner's state says what was read so far, so `run` of two texts in a row is `run` of the
first and then of the second (`run_append`).  Every part of a text has one lemma about `run`
over it: `run_escape` and `run_quoted` for strings, `run_number`, and for a tree the three
inductions of `run_render`.  `scan_render` is the round trip.

`scan_longer` is about a text that begins with `{` and is broken off: once the brace is read,
the scanner is inside it, or past its end, where only white space is left to read.
-/
import TreasuryForge.Base.JsonSyntax
import Mathlib.Data.List.TakeWhile

namespace JsonText

variable {S : List Frame} {y : Style}

theorem run_nil (σ : State) : run σ [] = some σ := rfl

theorem run_cons (σ : State) (c : Char) (cs : List Char) :
    run σ (c :: cs) = (step σ c).bind fun σ' => run σ' cs := rfl

theorem run_append (σ : State) (a b : List Char) :
    run σ (a ++ b) = (run σ a).bind fun σ' => run σ' b := by
  simp only [run, List.foldlM_append]
  rfl

/-! ## Strings -/

theorem hexValue_hexDigit : ∀ d : Fin 16, hexValue (hexDigit d) = some d := by decide

theorem ofHexDigits_hexDigits (u : CodeUnit) : ofHexDigits (hexDigits u) = u := by
  have hu := u.isLt
  apply Fin.ext
  simp only [ofHexDigits, hexDigits, List.foldl_cons, List.foldl_nil, Fin.val_ofNat]
  omega

/-- The characters that stand for themselves. -/
theorem ofNat_plain : ∀ n : Fin 127, 0x20 ≤ n.val → n.val ≠ 0x22 → n.val ≠ 0x5c →
    Char.ofNat n ≠ '"' ∧ Char.ofNat n ≠ '\\' ∧ ¬ (Char.ofNat n).toNat < 0x20 ∧
      unitsOf (Char.ofNat n) = [Fin.ofNat _ n.val] := by
  decide

/-- An escape of one letter. -/
theorem run_letter {c : Char} {u : CodeUnit} (hc : c ≠ 'u') (hu : unescape c = some u) (s : Slot)
    (us : List CodeUnit) :
    run ⟨S, .str s us⟩ ['\\', c] = some ⟨S, .str s (us ++ [u])⟩ := by
  have hslash : step ⟨S, .str s us⟩ '\\' = some ⟨S, .escape s us⟩ := by
    simp [step]
  have hletter : step ⟨S, .escape s us⟩ c = some ⟨S, .str s (us ++ [u])⟩ := by
    simp [step, hc, hu]
  rw [run_cons, hslash, Option.bind_some, run_cons, hletter, Option.bind_some, run_nil]

theorem run_escape (u : CodeUnit) (s : Slot) (us : List CodeUnit) :
    run ⟨S, .str s us⟩ (escape u) = some ⟨S, .str s (us ++ [u])⟩ := by
  unfold escape
  split
  · next h => exact h ▸ run_letter (by decide) rfl s us
  split
  · next h => exact h ▸ run_letter (by decide) rfl s us
  split
  · next h => exact h ▸ run_letter (by decide) rfl s us
  split
  · next h => exact h ▸ run_letter (by decide) rfl s us
  split
  · next h => exact h ▸ run_letter (by decide) rfl s us
  split
  · next h => exact h ▸ run_letter (by decide) rfl s us
  split
  · next h => exact h ▸ run_letter (by decide) rfl s us
  split
  · next hquote hslash _ _ _ _ _ h =>
      have hlt : u.val < 127 := by omega
      have hne : u.val ≠ 0x22 ∧ u.val ≠ 0x5c :=
        ⟨fun he => hquote (Fin.ext he), fun he => hslash (Fin.ext he)⟩
      obtain ⟨hq, hs, hc, hunits⟩ := ofNat_plain ⟨u, hlt⟩ h.1 hne.1 hne.2
      simp only at hq hs hc hunits
      simp [run_cons, run_nil, step, hq, hs, hc, hunits]
  · have hhex : ∀ {ds : List (Fin 16)} (d : Fin 16), ds.length < 3 →
        step ⟨S, .hex s us ds⟩ (hexDigit d) = some ⟨S, .hex s us (ds ++ [d])⟩ := by
      intro ds d hd
      simp [step, hexValue_hexDigit, hd.ne]
    have hlast : ∀ a b c d : Fin 16, step ⟨S, .hex s us [a, b, c]⟩ (hexDigit d) =
        some ⟨S, .str s (us ++ [ofHexDigits [a, b, c, d]])⟩ := by
      intro a b c d
      simp [step, hexValue_hexDigit]
    have hslash : step ⟨S, .str s us⟩ '\\' = some ⟨S, .escape s us⟩ := by simp [step]
    have hu : step ⟨S, .escape s us⟩ 'u' = some ⟨S, .hex s us []⟩ := by simp [step]
    have hword := ofHexDigits_hexDigits u
    simp only [hexDigits] at hword ⊢
    simp only [List.map_cons, List.map_nil, run_cons, run_nil, hslash, hu, Option.bind_some]
    rw [hhex _ (by simp), Option.bind_some, hhex _ (by simp), Option.bind_some, hhex _ (by simp),
      Option.bind_some]
    simp only [List.nil_append, List.cons_append]
    rw [hlast, hword]
    rfl

theorem run_quoted (vs : List CodeUnit) (s : Slot) (us : List CodeUnit) :
    run ⟨S, .str s us⟩ (quoted vs) = some ⟨S, s.close (us ++ vs)⟩ := by
  induction vs generalizing us with
  | nil => simp [quoted, run_cons, run_nil, step]
  | cons v vs ih =>
      have hsplit : quoted (v :: vs) = escape v ++ quoted vs := by
        simp [quoted]
      rw [hsplit, run_append, run_escape, Option.bind_some, ih, List.append_assoc]
      rfl

/-! ## Numbers -/

theorem isNumberChar_of_isDigit {c : Char} (h : c.isDigit = true) : isNumberChar c = true := by
  simp [isNumberChar, h]

theorem all_of_isExponent {cs : List Char} (h : isExponent cs = true) :
    ∀ c ∈ cs, isNumberChar c = true := by
  cases cs with
  | nil => exact fun c hc => absurd hc List.not_mem_nil
  | cons e cs =>
      have hdigits : ∀ {ds : List Char}, ds.all Char.isDigit = true → ∀ c ∈ ds, isNumberChar c = true :=
        fun hds c hc => isNumberChar_of_isDigit (List.all_eq_true.mp hds c hc)
      have he : isNumberChar e = true := by
        simp only [isExponent, Bool.and_eq_true, Bool.or_eq_true, beq_iff_eq] at h
        rcases h.1.1 with rfl | rfl <;> decide
      intro c hc
      rcases List.mem_cons.mp hc with rfl | hc
      · exact he
      · unfold isExponent at h
        simp only [Bool.and_eq_true] at h
        split at h
        · next ds =>
            rcases List.mem_cons.mp hc with rfl | hc
            · decide
            · exact hdigits h.2 c hc
        · next ds =>
            rcases List.mem_cons.mp hc with rfl | hc
            · decide
            · exact hdigits h.2 c hc
        · exact hdigits h.2 c hc

theorem all_of_isTail {cs : List Char} (h : isTail cs = true) : ∀ c ∈ cs, isNumberChar c = true := by
  unfold isTail at h
  split at h
  · next cs =>
      simp only [Bool.and_eq_true] at h
      intro c hc
      rcases List.mem_cons.mp hc with rfl | hc
      · decide
      · rw [← List.takeWhile_append_dropWhile (p := Char.isDigit) (l := cs)] at hc
        rcases List.mem_append.mp hc with hc | hc
        · exact isNumberChar_of_isDigit (List.mem_takeWhile_imp hc)
        · exact all_of_isExponent h.2 c hc
  · exact all_of_isExponent h

theorem all_of_isNumber {cs : List Char} (h : isNumber cs = true) :
    ∀ c ∈ cs, isNumberChar c = true := by
  simp only [isNumber, Bool.and_eq_true] at h
  have hrest : ∀ c ∈ unsigned cs, isNumberChar c = true := by
    intro c hc
    rw [← List.takeWhile_append_dropWhile (p := Char.isDigit) (l := unsigned cs)] at hc
    rcases List.mem_append.mp hc with hc | hc
    · exact isNumberChar_of_isDigit (List.mem_takeWhile_imp hc)
    · exact all_of_isTail h.2 c hc
  intro c hc
  unfold unsigned at hrest
  split at hrest
  · rcases List.mem_cons.mp hc with rfl | hc
    · decide
    · exact hrest c hc
  · exact hrest c hc

/-- A number begins with a sign or a digit. -/
theorem head_of_isNumber {cs : List Char} (h : isNumber cs = true) :
    ∃ c ds, cs = c :: ds ∧ (c = '-' ∨ c.isDigit = true) := by
  simp only [isNumber, Bool.and_eq_true] at h
  cases cs with
  | nil => simp [unsigned, isWhole] at h
  | cons c ds =>
      refine ⟨c, ds, rfl, ?_⟩
      by_cases hc : c = '-'
      · exact Or.inl hc
      · right
        have hun : unsigned (c :: ds) = c :: ds := by
          unfold unsigned
          split
          · next he => exact absurd (List.cons.inj he).1 hc
          · rfl
        rw [hun] at h
        by_contra hd
        rw [List.takeWhile_cons_of_neg (by simpa using hd)] at h
        simp [isWhole] at h

theorem run_digits {cs ds : List Char} (h : ∀ c ∈ ds, isNumberChar c = true) :
    run ⟨S, .num cs⟩ ds = some ⟨S, .num (cs ++ ds)⟩ := by
  induction ds generalizing cs with
  | nil => rw [List.append_nil, run_nil]
  | cons d ds ih =>
      have hd : step ⟨S, .num cs⟩ d = some ⟨S, .num (cs ++ [d])⟩ := by
        simp [step, h d List.mem_cons_self]
      rw [run_cons, hd, Option.bind_some, ih fun c hc => h c (List.mem_cons_of_mem _ hc),
        List.append_assoc]
      rfl

/-! ## Trees -/

/-- The scanner has read a value; that a number has ended it knows one character later. -/
inductive Ended (S : List Frame) (t : Tree) : State → Prop
  | after : Ended S t ⟨S, .after t⟩
  | num {n : Numeral} (h : t = .num n) : Ended S t ⟨S, .num n.text⟩

theorem Ended.step {t : Tree} {σ : State} (h : Ended S t σ) {c : Char} (hc : isNumberChar c = false)
    (hI : c ≠ 'I') : step σ c = follow S t c := by
  cases h with
  | after => rfl
  | @num n h => simp [JsonText.step, hc, hI, n.ok, h]

theorem run_word (w : Word) : run ⟨S, .value⟩ w.text = some ⟨S, .after (.word w)⟩ := by
  cases w <;> rfl

theorem begin_number {c : Char} (hc : c = '-' ∨ c.isDigit = true) :
    isSpace c = false ∧ c ≠ ']' ∧ begin S c = some ⟨S, .num [c]⟩ := by
  have hne : ∀ d : Char, d.isDigit = false → d ≠ '-' → c ≠ d := by
    rintro d hd hm rfl
    rcases hc with hc | hc
    · exact hm hc
    · rw [hd] at hc
      cases hc
  have hspace : isSpace c = false := by
    simp [isSpace, hne ' ' (by decide) (by decide), hne '\t' (by decide) (by decide),
      hne '\n' (by decide) (by decide), hne '\r' (by decide) (by decide)]
  refine ⟨hspace, hne _ (by decide) (by decide), ?_⟩
  simp only [begin, if_neg (hne '"' (by decide) (by decide)),
    if_neg (hne '[' (by decide) (by decide)), if_neg (hne '{' (by decide) (by decide)),
    if_neg (hne 'n' (by decide) (by decide)), if_neg (hne 't' (by decide) (by decide)),
    if_neg (hne 'f' (by decide) (by decide)), if_neg (hne 'N' (by decide) (by decide)),
    if_neg (hne 'I' (by decide) (by decide)), if_pos hc]

theorem run_number (n : Numeral) : run ⟨S, .value⟩ n.text = some ⟨S, .num n.text⟩ := by
  obtain ⟨c, ds, he, hc⟩ := head_of_isNumber n.ok
  obtain ⟨hspace, -, hbegin⟩ := begin_number (S := S) hc
  have hstep : step ⟨S, .value⟩ c = some ⟨S, .num [c]⟩ := by
    simp [step, hspace, hbegin]
  have hds : ∀ d ∈ ds, isNumberChar d = true := fun d hd =>
    all_of_isNumber n.ok d (he ▸ List.mem_cons_of_mem c hd)
  rw [he, run_cons, hstep, Option.bind_some, run_digits hds]
  rfl

/-- A value begins neither with white space nor with a closing bracket. -/
theorem render_head (y : Style) (t : Tree) :
    ∃ c cs, t.render y = c :: cs ∧ isSpace c = false ∧ c ≠ ']' := by
  cases t with
  | word w => cases w <;> exact ⟨_, _, rfl, by decide, by decide⟩
  | num n =>
      obtain ⟨c, ds, he, hc⟩ := head_of_isNumber n.ok
      obtain ⟨hspace, hne, -⟩ := begin_number (S := []) hc
      exact ⟨c, ds, he, hspace, hne⟩
  | str us => exact ⟨_, _, rfl, by decide, by decide⟩
  | arr ts => cases ts <;> exact ⟨_, _, rfl, by decide, by decide⟩
  | obj ms => cases ms <;> exact ⟨_, _, rfl, by decide, by decide⟩

/-- In an array that has just opened a value is read as anywhere. -/
theorem run_item (y : Style) (t : Tree) :
    run ⟨S, .item⟩ (t.render y) = run ⟨S, .value⟩ (t.render y) := by
  obtain ⟨c, cs, he, hspace, hne⟩ := render_head y t
  have hstep : step ⟨S, .item⟩ c = step ⟨S, .value⟩ c := by
    simp [step, hspace, hne]
  rw [he, run_cons, run_cons, hstep]

theorem run_space_value (y : Style) (cs : List Char) :
    run ⟨S, .value⟩ (y.space ++ cs) = run ⟨S, .value⟩ cs := by
  cases y <;> rfl

theorem run_space_member (y : Style) (ms : List (List CodeUnit × Tree)) (b : Bool)
    (cs : List Char) :
    run ⟨S, .member ms b⟩ (y.space ++ cs) = run ⟨S, .member ms b⟩ cs := by
  cases y <;> rfl

/-- A name and its colon. -/
theorem run_name (k : List CodeUnit) (ms : List (List CodeUnit × Tree)) (b : Bool)
    (cs : List Char) :
    run ⟨S, .member ms b⟩ ('"' :: (quoted k ++ ':' :: cs)) = run ⟨.obj ms k :: S, .value⟩ cs := by
  have hquote : step ⟨S, .member ms b⟩ '"' = some ⟨S, .str (.key ms) []⟩ := rfl
  have hcolon : step ⟨S, .colon ms k⟩ ':' = some ⟨.obj ms k :: S, .value⟩ := rfl
  rw [run_cons, hquote, Option.bind_some, run_append, run_quoted, Option.bind_some]
  exact (run_cons ..).trans (by rw [List.nil_append]; rw [show Slot.close k (.key ms) =
    .colon ms k from rfl, hcolon]; rfl)

mutual

/-- A value is read as it was written. -/
theorem run_render (y : Style) : ∀ (t : Tree) (S : List Frame),
    ∃ σ, run ⟨S, .value⟩ (t.render y) = some σ ∧ Ended S t σ
  | .word w, S => ⟨_, run_word w, .after⟩
  | .num n, S => ⟨_, run_number n, .num rfl⟩
  | .str us, S => by
      have hquote : step ⟨S, .value⟩ '"' = some ⟨S, .str .value []⟩ := rfl
      refine ⟨_, ?_, .after⟩
      rw [Tree.render, run_cons, hquote, Option.bind_some, run_quoted]
      rfl
  | .arr [], S => ⟨_, rfl, .after⟩
  | .arr (t :: ts), S => by
      have hopen : step ⟨S, .value⟩ '[' = some ⟨.arr [] :: S, .item⟩ := rfl
      obtain ⟨σ, hrun, hend⟩ := run_render y t (.arr [] :: S)
      refine ⟨_, ?_, .after⟩
      rw [Tree.render, run_cons, hopen, Option.bind_some, run_append, run_item, hrun,
        Option.bind_some, run_renderItems y ts hend]
      rfl
  | .obj [], S => ⟨_, rfl, .after⟩
  | .obj ((k, t) :: ms), S => by
      have hopen : step ⟨S, .value⟩ '{' = some ⟨S, .member [] true⟩ := rfl
      obtain ⟨σ, hrun, hend⟩ := run_render y t (.obj [] k :: S)
      refine ⟨_, ?_, .after⟩
      rw [Tree.render, run_cons, hopen, Option.bind_some, run_name, run_space_value, run_append,
        hrun, Option.bind_some, run_renderMembers y ms hend]
      rfl

theorem run_renderItems (y : Style) {S : List Frame} : ∀ (ts : List Tree) {done : List Tree}
    {t : Tree} {σ : State}, Ended (.arr done :: S) t σ →
      run σ (renderItems y ts) = some ⟨S, .after (.arr (done ++ t :: ts))⟩
  | [], done, t, σ, h => by
      rw [renderItems, run_cons, h.step (by decide) (by decide)]
      rfl
  | t' :: ts, done, t, σ, h => by
      have hcomma : follow (.arr done :: S) t ',' = some ⟨.arr (done ++ [t]) :: S, .value⟩ := rfl
      obtain ⟨σ', hrun, hend⟩ := run_render y t' (.arr (done ++ [t]) :: S)
      rw [renderItems, run_cons, h.step (by decide) (by decide), hcomma, Option.bind_some,
        run_space_value, run_append, hrun, Option.bind_some, run_renderItems y ts hend,
        List.append_assoc]
      rfl

theorem run_renderMembers (y : Style) {S : List Frame} : ∀ (ms : List (List CodeUnit × Tree))
    {done : List (List CodeUnit × Tree)} {k : List CodeUnit} {t : Tree} {σ : State},
      Ended (.obj done k :: S) t σ →
      run σ (renderMembers y ms) = some ⟨S, .after (.obj (done ++ (k, t) :: ms))⟩
  | [], done, k, t, σ, h => by
      rw [renderMembers, run_cons, h.step (by decide) (by decide)]
      rfl
  | (k', t') :: ms, done, k, t, σ, h => by
      have hcomma : follow (.obj done k :: S) t ',' =
          some ⟨S, .member (done ++ [(k, t)]) false⟩ := rfl
      obtain ⟨σ', hrun, hend⟩ := run_render y t' (.obj (done ++ [(k, t)]) k' :: S)
      rw [renderMembers, run_cons, h.step (by decide) (by decide), hcomma, Option.bind_some,
        run_space_member, run_name, run_space_value, run_append, hrun, Option.bind_some,
        run_renderMembers y ms hend, List.append_assoc]
      rfl

end

/-- What is written is read back. -/
theorem scan_render (y : Style) (t : Tree) : scan (t.render y) = some t := by
  obtain ⟨σ, hrun, hend⟩ := run_render y t []
  unfold scan
  rw [hrun]
  cases hend with
  | after => rfl
  | num h => simp [h, Numeral.ok]

/-- Two trees are not written alike, whatever the styles. -/
theorem render_inj {y y' : Style} {t t' : Tree} (h : t.render y = t'.render y') : t = t' := by
  have hscan := scan_render y t
  rw [h, scan_render] at hscan
  exact (Option.some.inj hscan).symm

/-! ## Texts that are broken off -/

/-- The scanner is inside an object, or past the end of one. -/
def Opened (σ : State) : Prop :=
  σ.stack ≠ [] ∨ match σ.mode with
    | .member .. | .colon .. | .after _ => True
    | .str s _ | .escape s _ | .hex s _ _ => ∃ ms, s = .key ms
    | _ => False

theorem Opened.begin {stack : List Frame} {c : Char} {σ' : State} (hs : stack ≠ [])
    (h : begin stack c = some σ') : Opened σ' := by
  -- an array opens, or the stack stays
  have hstack : σ'.stack ≠ [] := by
    simp only [JsonText.begin] at h
    grind
  exact Or.inl hstack

theorem Opened.follow {stack : List Frame} {t : Tree} {c : Char} {σ' : State}
    (h : follow stack t c = some σ') : Opened σ' := by
  unfold JsonText.follow at h
  split at h
  · cases h; exact Or.inr trivial
  · split at h
    · cases h
    · split at h
      · cases h; exact Or.inl (List.cons_ne_nil _ _)
      · split at h
        · cases h; exact Or.inr trivial
        · cases h
    · split at h
      · cases h; exact Or.inr trivial
      · split at h
        · cases h; exact Or.inr trivial
        · cases h

theorem Opened.step {σ σ' : State} {c : Char} (ho : Opened σ) (h : step σ c = some σ') :
    Opened σ' := by
  obtain ⟨stack, mode⟩ := σ
  cases mode with
  | value =>
      have hs : stack ≠ [] := ho.resolve_right id
      simp only [JsonText.step] at h
      split at h
      · cases h; exact Or.inl hs
      · exact .begin hs h
  | item =>
      have hs : stack ≠ [] := ho.resolve_right id
      simp only [JsonText.step] at h
      split at h
      · cases h; exact Or.inl hs
      · split at h
        · split at h
          · cases h; exact Or.inr trivial
          · cases h
        · exact .begin hs h
  | member ms b =>
      simp only [JsonText.step] at h
      split at h
      · cases h; exact Or.inr trivial
      · split at h
        · cases h; exact Or.inr ⟨ms, rfl⟩
        · split at h
          · cases h; exact Or.inr trivial
          · cases h
  | colon ms k =>
      simp only [JsonText.step] at h
      split at h
      · cases h; exact Or.inr trivial
      · split at h
        · cases h; exact Or.inl (List.cons_ne_nil _ _)
        · cases h
  | after t => exact .follow h
  | str s us =>
      simp only [JsonText.step] at h
      split at h
      · cases h
        rcases ho with hs | ⟨ms, rfl⟩
        · exact Or.inl hs
        · exact Or.inr trivial
      · split at h
        · cases h; exact ho
        · split at h
          · cases h
          · cases h; exact ho
  | escape s us =>
      simp only [JsonText.step] at h
      split at h
      · cases h; exact ho
      · obtain ⟨u, -, hu⟩ := Option.bind_eq_some_iff.mp h
        cases hu
        exact ho
  | hex s us ds =>
      simp only [JsonText.step] at h
      obtain ⟨d, -, hd⟩ := Option.bind_eq_some_iff.mp h
      split at hd
      · cases hd; exact ho
      · cases hd; exact ho
  | word rest w =>
      have hs : stack ≠ [] := ho.resolve_right id
      simp only [JsonText.step] at h
      split at h
      · cases h
      · split at h
        · cases h; exact Or.inl hs
        · cases h
      · split at h
        · cases h; exact Or.inl hs
        · cases h
  | num cs =>
      have hs : stack ≠ [] := ho.resolve_right id
      simp only [JsonText.step] at h
      split at h
      · cases h; exact Or.inl hs
      · split at h
        · cases h; exact Or.inl hs
        · split at h
          · exact .follow h
          · cases h

theorem Opened.run {σ σ' : State} {cs : List Char} (ho : Opened σ) (h : run σ cs = some σ') :
    Opened σ' := by
  induction cs generalizing σ with
  | nil =>
      rw [run_nil] at h
      cases h
      exact ho
  | cons c cs ih =>
      rw [run_cons] at h
      obtain ⟨σ₁, hstep, hrest⟩ := Option.bind_eq_some_iff.mp h
      exact ih (ho.step hstep) hrest

/-- A text from a brace on that is accepted ends in a value that has ended. -/
theorem run_of_scan {cs : List Char} {t : Tree} (h : scan ('{' :: cs) = some t) :
    run ⟨[], .value⟩ ('{' :: cs) = some ⟨[], .after t⟩ := by
  have hopen : step ⟨[], .value⟩ '{' = some ⟨[], .member [] true⟩ := rfl
  unfold scan at h
  cases hrun : run ⟨[], .value⟩ ('{' :: cs) with
  | none =>
      rw [hrun] at h
      cases h
  | some σ =>
      have ho : Opened σ := by
        rw [run_cons, hopen, Option.bind_some] at hrun
        exact Opened.run (Or.inr trivial) hrun
      rw [hrun] at h
      obtain ⟨stack, mode⟩ := σ
      cases stack with
      | cons f stack => cases h
      | nil =>
          cases mode with
          | after t' =>
              cases h
              rfl
          | num cs =>
              rcases ho with ho | ho
              · exact absurd rfl ho
              · exact ho.elim
          | _ => cases h

/-- After the end of a value only white space is read. -/
theorem space_of_run {t : Tree} {cs : List Char} {σ : State}
    (h : run ⟨[], .after t⟩ cs = some σ) : ∀ c ∈ cs, isSpace c = true := by
  induction cs with
  | nil => exact fun c hc => absurd hc List.not_mem_nil
  | cons c cs ih =>
      rw [run_cons] at h
      obtain ⟨σ₁, hstep, hrest⟩ := Option.bind_eq_some_iff.mp h
      have hc : isSpace c = true := by
        by_contra hn
        have hnone : step ⟨[], .after t⟩ c = none := by simp [step, follow, hn]
        rw [hnone] at hstep
        cases hstep
      have hsame : step ⟨[], .after t⟩ c = some ⟨[], .after t⟩ := by simp [step, follow, hc]
      rw [hsame] at hstep
      cases hstep
      intro d hd
      rcases List.mem_cons.mp hd with rfl | hd
      · exact hc
      · exact ih hrest d hd

/-- Of a text from a brace on that is accepted, a part is accepted only if white space is all
that it lacks. -/
theorem scan_longer {cs ds : List Char} (hpart : (scan ('{' :: cs)).isSome = true)
    (hall : (scan ('{' :: cs ++ ds)).isSome = true) : ∀ c ∈ ds, isSpace c = true := by
  obtain ⟨t, ht⟩ := Option.isSome_iff_exists.mp hpart
  obtain ⟨t', ht'⟩ := Option.isSome_iff_exists.mp hall
  have hrun : run ⟨[], .value⟩ ('{' :: cs ++ ds) = some ⟨[], .after t'⟩ := run_of_scan ht'
  rw [run_append, run_of_scan ht, Option.bind_some] at hrun
  exact space_of_run hrun

theorem renderMembers_last (y : Style) : ∀ ms : List (List CodeUnit × Tree),
    ∃ cs, renderMembers y ms = cs ++ ['}']
  | [] => ⟨[], rfl⟩
  | (k, t) :: ms => by
      obtain ⟨cs, hcs⟩ := renderMembers_last y ms
      refine ⟨',' :: (y.space ++ '"' :: (quoted k ++ ':' :: (y.space ++ (t.render y ++ cs)))), ?_⟩
      rw [renderMembers, hcs]
      simp only [List.append_assoc, List.cons_append]

theorem render_obj_last (y : Style) (ms : List (List CodeUnit × Tree)) :
    ∃ cs, (Tree.obj ms).render y = '{' :: (cs ++ ['}']) := by
  cases ms with
  | nil => exact ⟨[], rfl⟩
  | cons m ms =>
      obtain ⟨k, t⟩ := m
      obtain ⟨cs, hcs⟩ := renderMembers_last y ms
      refine ⟨'"' :: (quoted k ++ ':' :: (y.space ++ (t.render y ++ cs))), ?_⟩
      rw [Tree.render, hcs]
      simp only [List.append_assoc, List.cons_append]

/-- An object's text that is broken off anywhere is no text. -/
theorem scan_broken {y : Style} {ms : List (List CodeUnit × Tree)} {p q : List Char}
    (h : (Tree.obj ms).render y = p ++ q) (hp : p ≠ []) (hq : q ≠ []) : scan p = none := by
  obtain ⟨cs, hcs⟩ := render_obj_last y ms
  cases p with
  | nil => exact absurd rfl hp
  | cons c p =>
      have hc : c = '{' := by
        rw [hcs] at h
        exact (List.cons.inj h).1.symm
      subst hc
      refine Option.not_isSome_iff_eq_none.mp ?_
      intro hpart
      have hall : (scan ('{' :: p ++ q)).isSome = true := by
        rw [← h, scan_render]
        rfl
      have hlast : '}' ∈ q := by
        have hend : (p ++ q).getLast? = some '}' := by
          have htail : cs ++ ['}'] = p ++ q := by
            rw [hcs] at h
            exact (List.cons.inj h).2
          rw [← htail]
          simp
        obtain ⟨q', b, rfl⟩ := List.eq_nil_or_concat'  q |>.resolve_left hq
        have hb : b = '}' := by simpa using hend
        simp [hb]
      exact absurd (scan_longer hpart hall '}' hlast) (by decide)

/-! ## What is written is printable -/

def isPrintable (c : Char) : Bool := 0x20 ≤ c.toNat && c.toNat ≤ 0x7e

theorem printable_of_isNumberChar {c : Char} (h : isNumberChar c = true) : isPrintable c = true := by
  simp only [isNumberChar, Bool.or_eq_true, beq_iff_eq] at h
  rcases h with ((((h | rfl) | rfl) | rfl) | rfl) | rfl
  · simp only [Char.isDigit, Bool.and_eq_true, decide_eq_true_eq, UInt32.le_iff_toNat_le,
      isPrintable] at h ⊢
    exact ⟨le_trans (by decide) h.1, le_trans h.2 (by decide)⟩
  all_goals decide

theorem printable_ofNat : ∀ n : Fin 127, 0x20 ≤ n.val → isPrintable (Char.ofNat n) = true := by
  decide

theorem printable_hexDigit : ∀ d : Fin 16, isPrintable (hexDigit d) = true := by decide

theorem printable_escape (u : CodeUnit) : ∀ c ∈ escape u, isPrintable c = true := by
  have hletter : ∀ c, isPrintable c = true → ∀ d ∈ ['\\', c], isPrintable d = true := by
    intro c hc d hd
    rcases List.mem_cons.mp hd with rfl | hd
    · decide
    · rw [List.mem_singleton.mp hd]
      exact hc
  unfold escape
  split
  · exact hletter _ (by decide)
  split
  · exact hletter _ (by decide)
  split
  · exact hletter _ (by decide)
  split
  · exact hletter _ (by decide)
  split
  · exact hletter _ (by decide)
  split
  · exact hletter _ (by decide)
  split
  · exact hletter _ (by decide)
  split
  · next h =>
      intro c hc
      rw [List.mem_singleton.mp hc]
      exact printable_ofNat ⟨u.val, by omega⟩ h.1
  · intro c hc
    rcases List.mem_cons.mp hc with rfl | hc
    · decide
    rcases List.mem_cons.mp hc with rfl | hc
    · decide
    obtain ⟨d, -, rfl⟩ := List.mem_map.mp hc
    exact printable_hexDigit d

theorem printable_quoted (us : List CodeUnit) : ∀ c ∈ quoted us, isPrintable c = true := by
  intro c hc
  rcases List.mem_append.mp hc with hc | hc
  · obtain ⟨u, -, hu⟩ := List.mem_flatMap.mp hc
    exact printable_escape u c hu
  · rw [List.mem_singleton.mp hc]
    decide

theorem printable_of_all {cs : List Char} (h : cs.all isPrintable = true) :
    ∀ c ∈ cs, isPrintable c = true :=
  List.all_eq_true.mp h

theorem printable_space (y : Style) : ∀ c ∈ y.space, isPrintable c = true := by
  cases y <;> exact printable_of_all (by decide)

/-- A character, and then a text. -/
theorem printable_cons {c : Char} {cs : List Char} (hc : isPrintable c = true)
    (hcs : ∀ d ∈ cs, isPrintable d = true) : ∀ d ∈ c :: cs, isPrintable d = true :=
  List.forall_mem_cons.mpr ⟨hc, hcs⟩

theorem printable_append {cs ds : List Char} (hcs : ∀ d ∈ cs, isPrintable d = true)
    (hds : ∀ d ∈ ds, isPrintable d = true) : ∀ d ∈ cs ++ ds, isPrintable d = true :=
  List.forall_mem_append.mpr ⟨hcs, hds⟩

mutual

theorem printable_render (y : Style) : ∀ t : Tree, ∀ c ∈ t.render y, isPrintable c = true
  | .word w => by
      rw [Tree.render]
      cases w <;> exact printable_of_all (by decide)
  | .num n => by
      rw [Tree.render]
      exact fun c hc => printable_of_isNumberChar (all_of_isNumber n.ok c hc)
  | .str us => by
      rw [Tree.render]
      exact printable_cons (by decide) (printable_quoted us)
  | .arr [] => by
      rw [Tree.render]
      exact printable_of_all (by decide)
  | .arr (t :: ts) => by
      rw [Tree.render]
      exact printable_cons (by decide)
        (printable_append (printable_render y t) (printable_renderItems y ts))
  | .obj [] => by
      rw [Tree.render]
      exact printable_of_all (by decide)
  | .obj ((k, t) :: ms) => by
      rw [Tree.render]
      refine printable_cons (by decide) (printable_cons (by decide) ?_)
      refine printable_append (printable_quoted k) (printable_cons (by decide) ?_)
      exact printable_append (printable_space y)
        (printable_append (printable_render y t) (printable_renderMembers y ms))

theorem printable_renderItems (y : Style) : ∀ ts : List Tree,
    ∀ c ∈ renderItems y ts, isPrintable c = true
  | [] => by
      rw [renderItems]
      exact printable_of_all (by decide)
  | t :: ts => by
      rw [renderItems]
      refine printable_cons (by decide) (printable_append (printable_space y) ?_)
      exact printable_append (printable_render y t) (printable_renderItems y ts)

theorem printable_renderMembers (y : Style) : ∀ ms : List (List CodeUnit × Tree),
    ∀ c ∈ renderMembers y ms, isPrintable c = true
  | [] => by
      rw [renderMembers]
      exact printable_of_all (by decide)
  | (k, t) :: ms => by
      rw [renderMembers]
      refine printable_cons (by decide) (printable_append (printable_space y) ?_)
      refine printable_cons (by decide) (printable_append (printable_quoted k) ?_)
      refine printable_cons (by decide) (printable_append (printable_space y) ?_)
      exact printable_append (printable_render y t) (printable_renderMembers y ms)

end

end JsonText

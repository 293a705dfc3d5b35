/-
# `Base.JsonLines` — JSON texts as the lines of a file

The text of a dictionary, in the compact style, is printable and stands between braces, so it
is a line as it is: no line end is in it, and stripping takes nothing from it.  The lines of a
file are read one by one (`records_flatMap`), and a line that is broken off is no JSON text
(`scan_torn`).
-/
import TreasuryForge.Base.JsonValue
import TreasuryForge.Base.Lines

namespace JsonText

open Lines

variable {F : Type} {fl : Floats F} {items : List (Key F × Val F)} {l p : List Char}

/-- What tree the text of a dictionary is of. -/
theorem dumps_dict (h : dumps fl .compact (.dict items) = some l) :
    ∃ ms, l = (Tree.obj ms).render .compact ∧ written fl (.dict items) = .obj ms := by
  obtain ⟨t, ht, rfl⟩ := Option.map_eq_some_iff.mp h
  have hw : written fl (.dict items) = t := by rw [written, ht]; rfl
  obtain ⟨ms, -, hm⟩ := Option.bind_eq_some_iff.mp ht
  obtain ⟨ms', -, rfl⟩ := Option.map_eq_some_iff.mp hm
  exact ⟨_, rfl, hw⟩

theorem not_lineEnd_of_printable {c : Char} (h : isPrintable c = true) : isLineEnd c = false := by
  refine Bool.eq_false_iff.mpr ?_
  intro he
  simp only [isLineEnd, Bool.or_eq_true, beq_iff_eq] at he
  rcases he with rfl | rfl
  · exact absurd h (by decide)
  · exact absurd h (by decide)

theorem unended_render (t : Tree) : ∀ c ∈ t.render .compact, isLineEnd c = false :=
  fun c hc => not_lineEnd_of_printable (printable_render .compact t c hc)

/-- Stripping takes nothing from what begins and ends with a brace. -/
theorem strip_render_obj (ms : List (List CodeUnit × Tree)) :
    strip ((Tree.obj ms).render .compact) = (Tree.obj ms).render .compact := by
  obtain ⟨cs, hcs⟩ := render_obj_last .compact ms
  rw [hcs]
  refine strip_eq_self ?_ ?_
  · intro c hc
    cases hc
    decide
  · intro c hc
    rw [← List.cons_append, List.getLast?_append] at hc
    cases hc
    decide

theorem dumps_unended (h : dumps fl .compact (.dict items) = some l) :
    ∀ c ∈ l, isLineEnd c = false := by
  obtain ⟨ms, rfl, -⟩ := dumps_dict h
  exact unended_render _

/-- It begins and ends with a brace. -/
theorem dumps_braces (h : dumps fl .compact (.dict items) = some l) :
    ∃ cs, l = '{' :: (cs ++ ['}']) := by
  obtain ⟨ms, rfl, -⟩ := dumps_dict h
  exact render_obj_last .compact ms

theorem strip_dumps (h : dumps fl .compact (.dict items) = some l) : strip l = l := by
  obtain ⟨ms, rfl, -⟩ := dumps_dict h
  exact strip_render_obj ms

theorem scan_dumps (h : dumps fl .compact (.dict items) = some l) :
    scan l = some (written fl (.dict items)) := by
  obtain ⟨ms, rfl, hw⟩ := dumps_dict h
  rw [scan_render, hw]

theorem strip_torn (h : dumps fl .compact (.dict items) = some l) (hp : p <+: l) (hne : p ≠ []) :
    strip p ≠ [] ∧ strip p <+: p := by
  obtain ⟨cs, rfl⟩ := dumps_braces h
  obtain ⟨q, hq⟩ := hp
  cases p with
  | nil => exact absurd rfl hne
  | cons c p =>
      have hc : c = '{' := (List.cons.inj hq).1
      subst hc
      refine ⟨strip_ne_nil (by decide), strip_prefix ?_⟩
      intro c hc
      cases hc
      decide

/-- Broken off, it is no JSON text. -/
theorem scan_torn (h : dumps fl .compact (.dict items) = some l)
    (hp : p <+: l) (hne : p ≠ []) (hlt : p ≠ l) : scan (strip p) = none := by
  obtain ⟨hs, hsp⟩ := strip_torn h hp hne
  obtain ⟨ms, he, -⟩ := dumps_dict h
  obtain ⟨q, hq⟩ := hsp.trans hp
  refine scan_broken (he.symm.trans hq.symm) hs ?_
  intro hnil
  -- nothing is missing from the stripped part, so nothing was missing
  rw [hnil, List.append_nil] at hq
  rw [hq] at hsp
  exact hlt (hp.eq_of_length_le hsp.length_le)

/-- Ended lines that stripping leaves as they are, are the records of their file. -/
theorem records_flatMap {lines : List (List Char)}
    (h : ∀ l ∈ lines, (∀ c ∈ l, isLineEnd c = false) ∧ strip l = l ∧ l ≠ []) :
    records (lines.flatMap fun l => l ++ ['\n']) = lines := by
  induction lines with
  | nil => rfl
  | cons l lines ih =>
      obtain ⟨hend, hstrip, hne⟩ := h l List.mem_cons_self
      have hfile : (l :: lines).flatMap (fun l => l ++ ['\n']) =
          l ++ '\n' :: lines.flatMap fun l => l ++ ['\n'] := by
        simp
      rw [hfile, records_append, records_line hend, record, hstrip, if_neg hne,
        ih fun l' hl' => h l' (List.mem_cons_of_mem l hl')]
      rfl

end JsonText

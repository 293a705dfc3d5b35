/-
# `Orders.Filled` — where the fill of an outcome comes from

`submit` places the intent it is given, reconciles no record but the one it works on, and when it
returns a fill, that is what a reconcile said or what the record it found already had.
-/
import TreasuryForge.Orders.Manager

namespace TreasuryForge.Orders

open Resume Protocol

namespace Submitted

/-- The calls of the manager so far, with their replies. -/
abbrev History := List (Σ op : Op, Ret op)

variable (intent : Intent) (originId symbol : String)

/-- The order this run is about: `originId`, or what the record found under it says. -/
inductive Ours (es : History) : String → Prop
  | asked : Ours es originId
  | found {r : OrderRecord} : (⟨.get originId, some r⟩ : Σ op, Ret op) ∈ es → Ours es r.originId

/-- A reconcile of this order said so, or the record found had it. -/
inductive Known (es : History) (f : Fill) : Prop
  | said {handle : OrderHandle} {s : String} : Ours originId es handle.originId →
      (⟨.reconcile handle s, .ok (.fill f)⟩ : Σ op, Ret op) ∈ es → Known es f
  | kept {r : OrderRecord} {d : FillDict} : (⟨.get originId, some r⟩ : Σ op, Ret op) ∈ es →
      r.fill = some d → d.toFill = some f → Known es f

/-- Only this intent is placed, and only this order. -/
def MayCall (es : History) : Op → Prop
  | .get o => o = originId
  | .place r i => i = intent ∧ Ours originId es r.originId
  | .reconcile handle _ => Ours originId es handle.originId
  | _ => True

/-- The record in hand is of this order, and its fill is known. -/
structure Holds (es : History) (r : OrderRecord) : Prop where
  ours : Ours originId es r.originId
  known : ∀ d f, r.fill = some d → d.toFill = some f → Known originId es f

/-- A fill that is returned is known. -/
def Tells (es : History) : Except Raised Outcome → Prop
  | .ok out => ∀ f, out.fill = some f → Known originId es f
  | .error _ => True

/-- A record that is returned is held. -/
def Returns (es : History) : Except Raised OrderRecord → Prop
  | .ok r => Holds originId es r
  | .error _ => True

variable {intent originId symbol} {es : History} {e : Σ op, Ret op} {r : OrderRecord}

theorem Ours.cases {o : String} (h : Ours originId es o) :
    o = originId ∨ ∃ r : OrderRecord, (⟨.get originId, some r⟩ : Σ op, Ret op) ∈ es ∧
      o = r.originId := by
  cases h with
  | asked => exact Or.inl rfl
  | found hfound => exact Or.inr ⟨_, hfound, rfl⟩

theorem Ours.mono {o : String} (h : Ours originId es o) : Ours originId (es ++ [e]) o := by
  cases h with
  | asked => exact .asked
  | found hfound => exact .found (List.mem_append_left _ hfound)

theorem Known.mono {f : Fill} (h : Known originId es f) : Known originId (es ++ [e]) f := by
  cases h with
  | said hours hsaid => exact .said hours.mono (List.mem_append_left _ hsaid)
  | kept hfound hd hf => exact .kept (List.mem_append_left _ hfound) hd hf

theorem Holds.mono (h : Holds originId es r) : Holds originId (es ++ [e]) r where
  ours := h.ours.mono
  known d f hd hf := (h.known d f hd hf).mono

/-! ## The programs, one by one -/

theorem persist_keeps {event : String} (h : Holds originId es r) :
    (ofHistory (MayCall intent originId)).Keeps es (persist r event) fun es' _ =>
      Holds originId es' r :=
  ⟨trivial, fun _ => ⟨trivial, fun _ => ⟨trivial, fun _ => h.mono.mono.mono⟩⟩⟩

theorem setState_keeps {state : OrderState} {reason : String} (h : Holds originId es r) :
    (ofHistory (MayCall intent originId)).Keeps es (setState r state reason)
      (Returns originId) := by
  have hset : Holds originId es { r with state := state, reason := reason } :=
    ⟨h.ours, h.known⟩
  refine keeps_bind ((persist_keeps hset).mono ?_)
  rintro es' (e | -) hes'
  · trivial
  · exact hes'

theorem outcome_keeps (h : Holds originId es r) :
    (ofHistory (MayCall intent originId)).Keeps es (outcome r) (Tells originId) := by
  unfold outcome
  cases hfill : r.fill with
  | none =>
      intro f hf
      cases hf
  | some d =>
      simp only
      cases hd : d.toFill with
      | none => trivial
      | some fill =>
          intro f hf
          cases hf
          exact h.known d fill hfill hd

/-- After `tryFill` the record is held, filled or not. -/
theorem tryFill_keeps (h : Holds originId es r) :
    (ofHistory (MayCall intent originId)).Keeps es (tryFill r symbol) fun es' x => match x with
      | .ok (_, r') => Holds originId es' r'
      | .error _ => True := by
  refine ⟨h.ours, ?_⟩
  rintro (e | ⟨f⟩ | reason)
  · trivial
  · have hfilled : Holds originId
        (es ++ [⟨.reconcile r.handle (if symbol = "" then r.symbol else symbol), .ok (.fill f)⟩])
        { r with fill := some (asdict f) } := by
      refine ⟨h.ours.mono, ?_⟩
      intro d f' hd hf'
      cases hd
      rw [toFill_asdict] at hf'
      cases hf'
      exact .said h.ours.mono (List.mem_append_right es List.mem_cons_self)
    show Keeps _ _ (setState _ _ _ >>= _) _
    refine keeps_bind ((setState_keeps hfilled).mono ?_)
    rintro es' (e | r') hes'
    · trivial
    · exact hes'
  · exact h.mono

theorem placeOnce_keeps (h : Holds originId es r) :
    (ofHistory (MayCall intent originId)).Keeps es (placeOnce r intent) (Returns originId) := by
  refine ⟨⟨rfl, h.ours⟩, ?_⟩
  rintro ((e | e) | handle)
  · show Keeps _ _ (if _ then _ else _) _
    split
    · exact setState_keeps ⟨h.ours.mono, h.mono.known⟩
    · exact setState_keeps ⟨h.ours.mono, h.mono.known⟩
  · trivial
  · exact setState_keeps ⟨h.ours.mono, h.mono.known⟩

/-- What is left of `submit` once a record is found to rest. -/
theorem rest_keeps {reason : String} (h : Holds originId es r) :
    (ofHistory (MayCall intent originId)).Keeps es (setState r .open reason >>= outcome)
      (Tells originId) := by
  refine keeps_bind ((setState_keeps h).mono ?_)
  rintro es' (e | r') hes'
  · trivial
  · exact outcome_keeps hes'

theorem placeLoop_keeps : ∀ (fuel : ℕ) {es : History} {r : OrderRecord}, Holds originId es r →
    (ofHistory (MayCall intent originId)).Keeps es (placeLoop intent symbol fuel r)
      (Tells originId)
  | 0, _, _, h => outcome_keeps h
  | fuel + 1, es, r, h => by
      refine keeps_bind ((placeOnce_keeps h).mono ?_)
      rintro es' (e | r') hplaced
      · trivial
      · show Keeps _ _ (if _ then _ else _) _
        split
        · exact outcome_keeps hplaced
        · refine keeps_bind ((tryFill_keeps hplaced).mono ?_)
          rintro es'' (e | ⟨filled, r''⟩) htried
          · trivial
          · show Keeps _ _ (if _ then _ else _) _
            split
            · exact outcome_keeps htried
            · split
              · exact rest_keeps htried
              · exact placeLoop_keeps fuel htried

theorem resolve_keeps {n : ℤ} (h : Holds originId es r) :
    (ofHistory (MayCall intent originId)).Keeps es (resolve r intent symbol n)
      (Tells originId) := by
  unfold resolve
  split
  · exact outcome_keeps h
  · split
    · refine keeps_bind ((tryFill_keeps h).mono ?_)
      rintro es' (e | ⟨filled, r'⟩) htried
      · trivial
      · show Keeps _ _ (if _ then _ else _) _
        split
        · exact outcome_keeps htried
        · split
          · exact rest_keeps htried
          · exact placeLoop_keeps _ htried
    · exact placeLoop_keeps _ h

/-- A run of `submit`. -/
theorem submit_keeps (n : ℤ) :
    (ofHistory (MayCall intent originId)).Keeps [] (submit intent originId symbol n)
      (Tells originId) := by
  refine ⟨rfl, ?_⟩
  intro found
  cases found with
  | some r =>
      have hfound : (⟨.get originId, some r⟩ : Σ op, Ret op) ∈
          ([] ++ [⟨.get originId, some r⟩] : History) := List.mem_append_right _ (by simp)
      exact resolve_keeps ⟨.found hfound, fun d f hd hf => .kept hfound hd hf⟩
  | none =>
      have hfresh : Holds originId ([] ++ [⟨.get originId, none⟩])
          { originId := originId, state := .placing, symbol := symbol,
            side := if intent.side = .buy then "buy" else "sell" } :=
        ⟨.asked, fun d f hd _ => by cases hd⟩
      show Keeps _ _ (persist _ _ >>= _) _
      refine keeps_bind ((persist_keeps hfresh).mono ?_)
      rintro es' (e | -) hes'
      · trivial
      · exact resolve_keeps hes'

end Submitted

end TreasuryForge.Orders

/-
# `Orders.Protocol` — the order of the manager's calls

What `submit` and `recover` do, as a protocol: `Turn` is where a program stands
between two calls, with the record it holds, and `Allowed` the calls it may make
there.

    turn                    next calls
    idle                    get · ids · item
    missing o               store a fresh PLACING record
    hold r                  reconcile, if r is in flight · place, if r is PLACING
    unfilled r              store r as OPEN · place, if r is UNKNOWN
    filled r f              store r as FILLED with f
    answered r reply        store r as the reply says
    stored r                append
    logged r                checkpoint, and then hold r

A `place` comes from a PLACING record that was read or just written, or from an
UNKNOWN one that was just reconciled unfilled: there is no third way.
`submit_keeps` and `recover_keeps` are the only results about the text of the
programs; everything else about them follows from the protocol.
-/
import TreasuryForge.Orders.World

namespace TreasuryForge.Orders

open Resume Protocol

/-- The record with one more attempt counted. -/
def OrderRecord.attempt (r : OrderRecord) : OrderRecord := { r with attempts := r.attempts + 1 }

/-- The record `submit` starts a new order with. -/
def OrderRecord.fresh (intent : Intent) (originId symbol : String) : OrderRecord :=
  { originId := originId, state := .placing, symbol := symbol,
    side := if intent.side = .buy then "buy" else "sell" }

/-- Where a program stands. -/
inductive Turn where
  | idle
  | missing (originId : String)
  | hold (r : OrderRecord)
  | unfilled (r : OrderRecord)
  | filled (r : OrderRecord) (f : Fill)
  | answered (r : OrderRecord) (reply : Except Raised OrderHandle)
  | stored (r : OrderRecord)
  | logged (r : OrderRecord)

namespace Turn

/-- The order whose record is in memory and not yet on disk. -/
def unsaved : Turn → Option String
  | .stored r | .logged r => some r.originId
  | _ => none

def next : Turn → (op : Op) → Ret op → Turn
  | _, .get o, none => .missing o
  | _, .get _, some r => .hold r
  | _, .item _, none => .idle
  | _, .item _, some r => .hold r
  | t, .ids, _ => t
  | _, .store r, _ => .stored r
  | _, .append _ r, _ => .logged r
  | .logged r, .checkpoint, _ => .hold r
  | _, .place r _, reply => .answered r reply
  | .hold r, .reconcile _ _, .ok (.unfilled _) => .unfilled r
  | .hold r, .reconcile _ _, .ok (.fill f) => .filled r f
  -- a reconcile that raises ends the command
  | .hold _, .reconcile _ _, .error _ => .idle
  | t, _, _ => t

end Turn

/-- A record as the result of a finished step may replace it. -/
inductive Replaces : Turn → OrderRecord → Prop
  | rest {r reason} : Replaces (.unfilled r) { r with state := .open, reason := reason }
  | fill {r f} : Replaces (.filled r f)
      { r with fill := some (asdict f), state := .filled, reason := "" }
  | refuse {r e} : e.category.definitelyNotLanded = true →
      Replaces (.answered r (.error (.bitso e))) { r with state := .rejected, reason := e.text }
  | lose {r e} : e.category.definitelyNotLanded = false →
      Replaces (.answered r (.error (.bitso e))) { r with state := .unknown, reason := e.text }
  | accept {r hd} : Replaces (.answered r (.ok hd))
      { r with oid := hd.oid, book := hd.book, state := .submitted, reason := "" }

/-- The calls a command may make at a turn. -/
inductive Allowed : Cmd → Turn → Op → Prop
  | get {i o s n} : Allowed (.submit i o s n) .idle (.get o)
  | ids {m} : Allowed (.recover m) .idle .ids
  | item {m t o} : t.unsaved = none → Allowed (.recover m) t (.item o)
  | create {i o s n} : Allowed (.submit i o s n) (.missing o) (.store (.fresh i o s))
  | replace {c t r} : Replaces t r → Allowed c t (.store r)
  | append {c event r} : Allowed c (.stored r) (.append event r)
  | checkpoint {c r} : Allowed c (.logged r) .checkpoint
  | reconcile {c r symbol} : r.state.terminal = false →
      Allowed c (.hold r) (.reconcile r.handle symbol)
  | placeFirst {i o s n r} : r.state = .placing → (r.attempts : ℤ) < n →
      Allowed (.submit i o s n) (.hold r) (.place r.attempt i)
  | placeAgain {i o s n r} : r.state = .unknown → (r.attempts : ℤ) < n →
      Allowed (.submit i o s n) (.unfilled r) (.place r.attempt i)

def protocol (c : Cmd) : Protocol Op Ret Turn := ⟨Allowed c, Turn.next⟩

/-- A command ends with everything it wrote on disk. -/
def Ends (t : Turn) (_ : Except Raised (List Outcome)) : Prop := t.unsaved = none

/-! ## The programs keep the protocol -/

section Programs
variable {c : Cmd} {t : Turn} {r : OrderRecord}

theorem persist_keeps {event : String} {Q : Turn → Except Raised Unit → Prop}
    (h : Allowed c t (.store r)) (hQ : Q (.hold r) (.ok ())) :
    (protocol c).Keeps t (persist r event) Q :=
  ⟨h, fun _ => ⟨.append, fun _ => ⟨.checkpoint, fun _ => hQ⟩⟩⟩

theorem setState_keeps {state : OrderState} {reason : String}
    {Q : Turn → Except Raised OrderRecord → Prop}
    (h : Allowed c t (.store { r with state := state, reason := reason }))
    (hQ : Q (.hold { r with state := state, reason := reason })
      (.ok { r with state := state, reason := reason })) :
    (protocol c).Keeps t (setState r state reason) Q :=
  keeps_bind (persist_keeps h hQ)

theorem outcome_keeps {Q : Turn → Except Raised Outcome → Prop} (h : ∀ x, Q t x) :
    (protocol c).Keeps t (outcome r) Q := by
  unfold outcome
  cases r.fill with
  | none => exact h _
  | some d =>
      simp only
      cases d.toFill with
      | none => exact h _
      | some f => exact h _

/-- After `tryFill` the record is filled and written, or was reconciled unfilled and
is as it was; or the reconcile raised. -/
theorem tryFill_keeps {symbol : String} {Q : Turn → Except Raised (Bool × OrderRecord) → Prop}
    (hr : r.state.terminal = false)
    (hfill : ∀ r', Q (.hold r') (.ok (true, r')))
    (hnone : Q (.unfilled r) (.ok (false, r)))
    (hraise : ∀ e, Q .idle (.error e)) :
    (protocol c).Keeps (.hold r) (tryFill r symbol) Q := by
  refine ⟨.reconcile hr, ?_⟩
  intro reply
  rcases reply with e | ⟨f | reason⟩
  · exact hraise e
  · show Keeps _ _ (setState _ _ _ >>= _) _
    exact keeps_bind (setState_keeps (.replace .fill) (hfill _))
  · exact hnone

/-- A POST may follow at this turn for this record. -/
def Ready (t : Turn) (r : OrderRecord) : Prop :=
  (t = .hold r ∧ r.state = .placing) ∨ (t = .unfilled r ∧ r.state = .unknown)

theorem Ready.place {i : Intent} {o s : String} {n : ℤ} (h : Ready t r)
    (hn : (r.attempts : ℤ) < n) : Allowed (.submit i o s n) t (.place r.attempt i) := by
  obtain ⟨rfl, hs⟩ | ⟨rfl, hs⟩ := h
  · exact .placeFirst hs hn
  · exact .placeAgain hs hn

theorem Ready.unsaved (h : Ready t r) : t.unsaved = none := by
  obtain ⟨rfl, _⟩ | ⟨rfl, _⟩ := h <;> rfl

/-- After `placeOnce` the attempt is counted and the record written as rejected,
unknown or submitted; or the POST raised something else. -/
theorem placeOnce_keeps {i : Intent} {o s : String} {n : ℤ}
    {Q : Turn → Except Raised OrderRecord → Prop} (h : Ready t r) (hn : (r.attempts : ℤ) < n)
    (hdone : ∀ r', r'.attempts = r.attempts + 1 →
      r'.state = .rejected ∨ r'.state = .unknown ∨ r'.state = .submitted → Q (.hold r') (.ok r'))
    (hraise : ∀ e, Q (.answered r.attempt (.error e)) (.error e)) :
    (protocol (.submit i o s n)).Keeps t (placeOnce r i) Q := by
  refine ⟨h.place hn, ?_⟩
  intro reply
  rcases reply with e | hd
  · cases e with
    | other e => exact hraise _
    | bitso e =>
        show Keeps _ _ (if _ then _ else _) _
        split
        · next hc => exact setState_keeps (.replace (.refuse hc)) (hdone _ rfl (Or.inl rfl))
        · next hc =>
            have hc' : e.category.definitelyNotLanded = false := by simpa using hc
            exact setState_keeps (.replace (.lose hc')) (hdone _ rfl (Or.inr (Or.inl rfl)))
  · exact setState_keeps (.replace .accept) (hdone _ rfl (Or.inr (Or.inr rfl)))

/-- What is left of `submit` once the record is reconciled unfilled and not UNKNOWN. -/
theorem rest_keeps {reason : String} {Q : Turn → Except Raised Outcome → Prop}
    (h : ∀ r' x, Q (.hold r') x) :
    (protocol c).Keeps (.unfilled r) (setState r .open reason >>= outcome) Q :=
  keeps_bind (setState_keeps (.replace .rest) (outcome_keeps (h _)))

theorem placeLoop_keeps {i : Intent} {o s symbol : String} {n : ℤ} :
    ∀ {fuel : ℕ} {t : Turn} {r : OrderRecord}, Ready t r → fuel = passes n r →
      (protocol (.submit i o s n)).Keeps t (placeLoop i symbol fuel r)
        (fun t' _ => t'.unsaved = none)
  | 0, t, r, h, _ => outcome_keeps fun _ => h.unsaved
  | fuel + 1, t, r, h, hf => by
      have hn : (r.attempts : ℤ) < n := by unfold passes at hf; omega
      refine keeps_bind (placeOnce_keeps h hn ?_ fun e => rfl)
      intro r' ha hs
      show Keeps _ _ (if _ then _ else _) _
      split
      · exact outcome_keeps fun _ => rfl
      · next hrej =>
          have hr : r'.state.terminal = false := by
            rcases hs with hs | hs | hs
            · exact absurd hs hrej
            · rw [hs]; rfl
            · rw [hs]; rfl
          refine keeps_bind (tryFill_keeps hr ?_ ?_ fun e => rfl)
          · exact fun r'' => outcome_keeps fun _ => rfl
          · show Keeps _ _ (if _ then _ else _) _
            rw [if_neg (by simp)]
            split
            · exact rest_keeps fun _ _ => rfl
            · next hu =>
                -- still UNKNOWN: the next pass, with one attempt more
                refine placeLoop_keeps (Or.inr ⟨rfl, not_not.mp hu⟩) ?_
                unfold passes at hf ⊢
                omega

theorem resolve_keeps {i : Intent} {o s symbol : String} {n : ℤ} :
    (protocol (.submit i o s n)).Keeps (.hold r) (resolve r i symbol n)
      (fun t' _ => t'.unsaved = none) := by
  unfold resolve
  split
  · exact outcome_keeps fun _ => rfl
  · next ht =>
      have hr : r.state.terminal = false := by simpa using ht
      split
      · refine keeps_bind (tryFill_keeps hr ?_ ?_ fun e => rfl)
        · exact fun r' => outcome_keeps fun _ => rfl
        · show Keeps _ _ (if _ then _ else _) _
          rw [if_neg (by simp)]
          split
          · exact rest_keeps fun _ _ => rfl
          · next hu => exact placeLoop_keeps (Or.inr ⟨rfl, not_not.mp hu⟩) rfl
      · next hs =>
          have hp : r.state = .placing := by
            revert hr hs
            cases r.state <;> simp [OrderState.terminal]
          exact placeLoop_keeps (Or.inl ⟨rfl, hp⟩) rfl

theorem submit_keeps {i : Intent} {o s : String} {n : ℤ} :
    (protocol (.submit i o s n)).Keeps .idle (submit i o s n) (fun t' _ => t'.unsaved = none) := by
  refine ⟨.get, ?_⟩
  intro found
  cases found with
  | some r => exact resolve_keeps
  | none =>
      show Keeps _ _ (persist _ _ >>= _) _
      exact keeps_bind (persist_keeps .create resolve_keeps)

theorem recoverOne_keeps {m symbolOf : Dict String String} {o : String} (ht : t.unsaved = none) :
    (protocol (.recover m)).Keeps t (recoverOne symbolOf o) (fun t' _ => t'.unsaved = none) := by
  refine ⟨.item ht, ?_⟩
  intro found
  cases found with
  | none => exact rfl
  | some r =>
      show Keeps _ _ (if _ then _ else _) _
      split
      · exact rfl
      · next hs =>
          refine keeps_bind (tryFill_keeps (by simpa using hs) ?_ ?_ fun e => rfl)
          · exact fun r' => keeps_bind (outcome_keeps fun x => by cases x <;> rfl)
          · show Keeps _ _ (if _ then _ else _) _
            split
            · exact keeps_bind (setState_keeps (.replace .rest)
                (keeps_bind (outcome_keeps fun x => by cases x <;> rfl)))
            · exact keeps_bind (outcome_keeps fun x => by cases x <;> rfl)

theorem recoverAll_keeps {m symbolOf : Dict String String} :
    ∀ {os : List String} {t : Turn}, t.unsaved = none →
      (protocol (.recover m)).Keeps t (recoverAll symbolOf os) (fun t' _ => t'.unsaved = none)
  | [], _, ht => ht
  | _ :: _, _, ht => by
      refine keeps_bind ((recoverOne_keeps ht).mono ?_)
      rintro t' (_ | o) ht'
      · exact ht'
      · refine keeps_bind ((recoverAll_keeps ht').mono ?_)
        rintro t'' (_ | _) ht''
        · exact ht''
        · exact ht''

theorem recover_keeps {m : Dict String String} :
    (protocol (.recover m)).Keeps .idle (recover m) (fun t' _ => t'.unsaved = none) :=
  ⟨.ids, fun _ => recoverAll_keeps rfl⟩

theorem entry_keeps (v : Venue) (c : Cmd) : (protocol c).Keeps .idle ((host v).entry c) Ends := by
  cases c with
  | submit i o s n =>
      refine keeps_bind (submit_keeps.mono ?_)
      rintro t (_ | _) ht
      · exact ht
      · exact ht
  | recover m => exact recover_keeps

end Programs

end TreasuryForge.Orders

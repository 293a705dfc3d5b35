/-
# `Orders.Retry` — what precedes a second POST

Two properties of the order manager are decided where it POSTs again: that a
reconcile comes between two POSTs of one order (`ReconciledBetween`, here), and that
the exchange executes at most one order per `origin_id` (`Orders.AtMostOnce`).

`submit` POSTs a PLACING record without asking the exchange.  A PLACING record
with a POST behind it is left by a crash after the POST, or by an exception that
is no `BitsoError`, and it is POSTed again as it stands.  And what a reconcile
found may be out of date when the POST arrives: the order may have filled since,
or the reconcile never saw the trades.  The guards below exclude these steps and
no others; a run of steps that meet them has the property.
-/
import TreasuryForge.Orders.Invariant

namespace TreasuryForge.Orders

open Resume

/-! ## The parts of a step a condition speaks about -/

/-- The key `submit` looks up. -/
def Op.looksUp : Op → Option String
  | .get o => some o
  | _ => none

def Op.reconciles : Op → Option OrderHandle
  | .reconcile h _ => some h
  | _ => none

def Op.posts : Op → Option OrderRecord
  | .place r _ => some r
  | _ => none

def Cmd.maxAttempts : Cmd → Option ℤ
  | .submit _ _ _ n => some n
  | .recover _ => none

/-- The reconcile's query was answered, and with no trade log. -/
def Answer.undecided : Answer → Bool
  | .pending _ => true
  | _ => false

/-- `submit` would POST this record as it finds it. -/
def PostsAtOnce (c : Cmd) (r : OrderRecord) : Prop :=
  r.state = .placing ∧ ∃ n ∈ c.maxAttempts, (r.attempts : ℤ) < n

/-- `submit` would POST this record after a reconcile that found nothing. -/
def PostsAgain (c : Cmd) (r : OrderRecord) : Prop :=
  r.state = .unknown ∧ ∃ n ∈ c.maxAttempts, (r.attempts : ℤ) < n

instance (c : Cmd) (r : OrderRecord) : Decidable (PostsAtOnce c r) := by
  unfold PostsAtOnce; infer_instance

instance (c : Cmd) (r : OrderRecord) : Decidable (PostsAgain c r) := by
  unfold PostsAgain; infer_instance

/-! ## Reconcile before retry -/

/-- Between two consecutive POSTs of an order there is a reconcile of it that
returned no fill. -/
def ReconciledBetween (trace : List Call) : Prop :=
  ∀ o pre mid post, trace = pre ++ .place o :: mid ++ .place o :: post → .place o ∉ mid →
    .unfilled o ∈ mid

/-- The last POST of the order has no unfilled reconcile after it. -/
def Pending (trace : List Call) (o : String) : Prop :=
  trace.reverse.find? (fun c => c = .place o ∨ c = .unfilled o) = some (.place o)

instance (trace : List Call) (o : String) : Decidable (Pending trace o) := by
  unfold Pending; infer_instance

section Trace
variable {trace : List Call} {o : String} {c : Call}

theorem not_pending_of_not_mem (h : .place o ∉ trace) : ¬ Pending trace o := by
  intro hp
  have hm := List.mem_of_find?_eq_some hp
  exact h (List.mem_reverse.mp hm)

theorem not_pending_unfilled : ¬ Pending (trace ++ [.unfilled o]) o := by
  simp [Pending]

/-- A POST with no unfilled reconcile after it is pending. -/
theorem pending_of_split {pre mid : List Call} (h : trace = pre ++ .place o :: mid)
    (hmid : .place o ∉ mid) (hu : .unfilled o ∉ mid) : Pending trace o := by
  subst h
  have hnone : mid.reverse.find? (fun c => c = .place o ∨ c = .unfilled o) = none := by
    simp only [List.find?_eq_none, List.mem_reverse, decide_eq_true_eq]
    rintro c hc (rfl | rfl)
    · exact hmid hc
    · exact hu hc
  have hrev : (pre ++ .place o :: mid).reverse = mid.reverse ++ .place o :: pre.reverse := by simp
  rw [Pending, hrev, List.find?_append, hnone]
  simp

theorem ReconciledBetween.append (h : ReconciledBetween trace)
    (hc : ∀ o, c = .place o → ¬ Pending trace o) : ReconciledBetween (trace ++ [c]) := by
  intro o pre mid post he hmid
  rcases List.eq_nil_or_concat post with rfl | ⟨post, c', rfl⟩
  · obtain ⟨ht, hlast⟩ := List.append_inj' he rfl
    obtain rfl : c = .place o := by simpa using hlast
    by_contra hu
    exact hc o rfl (pending_of_split ht hmid hu)
  · have he' : trace ++ [c] = (pre ++ .place o :: mid ++ .place o :: post) ++ [c'] := by
      rw [he]; simp
    obtain ⟨ht, _⟩ := List.append_inj' he' rfl
    exact h o pre mid post ht hmid

end Trace

/-- `submit` finds no PLACING record, with a pass left, of an order whose last POST
was not reconciled. -/
def knownGuard : Guard World Op Cmd Answer Env Unit where
  answer c w op _ := ∀ o ∈ op.looksUp, ∀ r ∈ w.orders.get? o, PostsAtOnce c r →
    ¬ Pending w.trace o

instance : knownGuard.Checked where
  call _ _ := isTrue trivial
  answer _ _ _ _ := by unfold knownGuard; infer_instance
  env _ _ _ := isTrue trivial
  crash _ _ := isTrue trivial

/-- A POST is next only for an order with no POST pending. -/
def Clear (h : Option Op) (w : World) : Prop :=
  ∀ r i, h = some (.place r i) → ¬ Pending w.trace r.originId

variable {v : Venue}

theorem clear_of_step {w w' : World} {a : Answer} {c : Cmd} {t t' : Turn} {op : Op}
    {h : Option Op} (hb : Base t w) (hg : knownGuard.answer c w op a)
    (hs : Step v w a c t op t' w') (hh : (protocol c).AllowsHead t' h) : Clear h w' := by
  rintro r i rfl
  rcases before_place hb hs hh with hnew | ⟨i', o, s, n, r₀, rfl, rfl, rfl, ho, hr, hp, hn⟩ |
      ⟨i', o, s, n, r₀, symbol, rfl, rfl, ho, _, _, _, rfl, _⟩
  · exact not_pending_of_not_mem hnew
  · rw [ho]
    exact hg o rfl r₀ hr ⟨hp, n, rfl, hn⟩
  · rw [ho]
    exact not_pending_unfilled

theorem reconciled_of_step {w w' : World} {a : Answer} {c : Cmd} {t t' : Turn} {op : Op}
    (hw : ReconciledBetween w.trace) (hc : Clear (some op) w) (hs : Step v w a c t op t' w') :
    ReconciledBetween w'.trace := by
  have ask : ∀ {call : Call}, (∀ o, call ≠ .place o) →
      ReconciledBetween (w.trace ++ [call]) :=
    fun hne => hw.append fun o e => absurd e (hne o)
  have post : ∀ {r i}, op = .place r i → ReconciledBetween (w.trace ++ [.place r.originId]) := by
    rintro r i rfl
    refine hw.append ?_
    intro o e
    cases e
    exact hc r i rfl
  cases hs with
  | landed _ _ _ _ => exact post rfl
  | refused _ _ => exact post rfl
  | noFill _ _ => exact ask fun _ e => nomatch e
  | fill _ _ _ => exact ask fun _ e => nomatch e
  | pending _ => exact ask fun _ e => nomatch e
  | raised _ => exact ask fun _ e => nomatch e
  | _ => exact hw

theorem known_law : Law v knownGuard (fun w => ReconciledBetween w.trace)
    (fun _ h w => ReconciledBetween w.trace ∧ Clear h w) where
  init := fun o pre mid post he => by simp at he
  enter h hh := by
    refine ⟨h, ?_⟩
    rintro r i rfl
    cases hh
  step hb hj hg hs _ hh := ⟨reconciled_of_step hj.1 hj.2 hs, clear_of_step hb hg hs hh⟩
  finish h := h.1
  envIdle h := by simpa using h
  envBusy h _ := ⟨by simpa using h.1, fun r i hr => by simpa using h.2 r i hr⟩
  reboot _ h hw := by
    obtain ⟨_, _, _, htrace⟩ := World.reboot_eq_some hw
    rwa [htrace]

/-! ### Runs

`submit` up to its first POST; the answers of the journal writes in between are all
`done`. -/

def anIntent : Intent := { symbol := "btc", side := .buy, baseAmount := 1 }

def timeout : Raised := .bitso ⟨.indeterminate, "timeout", "read timed out", 504⟩

/-- `submit` of a new order, up to its POST. -/
def newOrder : List (Event Cmd Answer Env Unit) :=
  [.call (.submit anIntent "o" "btc" 3), .answer .done, .answer .done, .answer .done, .answer .done]

/-- The POST landed and its answer was lost; the record is UNKNOWN on disk. -/
def lostAnswer : List (Event Cmd Answer Env Unit) :=
  newOrder ++ [.answer (.failed (some "x") timeout), .answer .done, .answer .done, .answer .done]

/-- The process dies after the POST; `submit` is called again after the restart and
finds the record PLACING. -/
def crashAfterPost : List (Event Cmd Answer Env Unit) :=
  newOrder ++ [.answer (.accepted "x" true "btc"), .crash (),
    .call (.submit anIntent "o" "btc" 3), .answer .done]

/-- In a run in which no unreconciled PLACING order is submitted again, a reconcile
that returned no fill comes between any two POSTs of an order. -/
theorem reconcile_before_retry {c : Config World Op Ret Raised (List Outcome) Cmd}
    (hc : (host v).Reach knownGuard {} c) : ReconciledBetween c.world.trace :=
  (known_law.always hc).2

/-- A retry after a lost answer and an unfilled reconcile is such a run. -/
theorem reconcile_before_retry_lost : ∃ c, (host .bitso).Reach knownGuard {} c ∧
    c.world.trace = [.place "o", .unfilled "o", .place "o"] ∧ ReconciledBetween c.world.trace := by
  obtain ⟨c, hc, ht⟩ := (host .bitso).reach_of_run knownGuard {}
    (lostAnswer ++ [.answer .trades, .answer (.failed none timeout)])
    (fun c => c.world.trace = [.place "o", .unfilled "o", .place "o"]) (by decide +kernel)
  exact ⟨c, hc, by simpa using ht, reconcile_before_retry hc⟩

/-- After the crash the order is POSTed a second time with no reconcile in between. -/
theorem crash_reposts_unreconciled : ∃ c, (host .bitso).Reach .any {} c ∧
    ¬ ReconciledBetween c.world.trace := by
  obtain ⟨c, hc, ht⟩ := (host .bitso).reach_of_run .any {}
    (crashAfterPost ++ [.answer (.failed none timeout)])
    (fun c => c.world.trace = [.place "o", .place "o"]) (by decide +kernel)
  refine ⟨c, hc, ?_⟩
  intro h
  have hmem := h "o" [] [] [] (by simpa using ht) List.not_mem_nil
  cases hmem

end TreasuryForge.Orders

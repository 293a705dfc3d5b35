/-
# `Live.AutonomousProtocol` — the order of the runner's calls

`Turn` is where the runner stands between two calls, and `Allowed` the calls it may
make there.

    turn               next calls
    idle               args · time
    observing c        lastBar · observe
    following c a      journal · resetEq · ledger · deploys · committee · collateral,
                       time before an entry · positions before a close
    ticked c ms        evaluate
    approved c n e     rail · time · submit of the entry
    closing c          rail · time · submit of the close

A call that does not come out as the runner needs it (`Op.passed`) takes it back to
`idle`.  The pass goes on to the next coin, or ends, from any turn but those of an
exit under way (`Turn.exiting`).  `registerFill` has no turn.
-/
import TreasuryForge.Live.AutonomousWorld

namespace TreasuryForge.Autonomous

open Resume Protocol Orders

inductive Turn where
  | idle
  | observing (coin : String)
  | following (coin : String) (action : Action)
  | ticked (coin : String) (ms : ℤ)
  | approved (coin : String) (notional : ℚ) (ts : ℤ)
  | closing (coin : String)

/-- The runner goes on from this reply: nothing was raised, and nobody said no. -/
def Op.passed : (op : Op) → Ret op → Bool
  | .bar _ _, .ok (some _) => true
  | .observe _ _, .ok (action, _) => action.isExit || action = .enter
  | .deploys _ _, .ok b | .committee _ _, .ok b => b
  | .evaluate _ _ _, verdict => verdict.allowed
  | .journal _ _, .ok _ | .rail _ _, .ok _ | .persist _, .ok _ => true
  | .ledger _, .ok _ | .collateral, .ok _ | .positions, .ok _ => true
  -- a submission has been made whatever comes back
  | .submit _ _ _ _, _ => true
  | .args, _ | .time, _ | .lastBar _, _ | .resetEq _, _ | .registerFill _ _, _ => true
  | _, _ => false

namespace Turn

/-- The coin whose exit is being followed. -/
def exiting : Turn → Option String
  | .following coin action => if action = .enter then none else some coin
  | .closing coin => some coin
  | _ => none

theorem not_exiting {t : Turn} {coin : String} {P : Prop} (h : t.exiting = none)
    (e : t.exiting = some coin) : P := by
  rw [h] at e
  cases e

/-- The turn after a reply the runner goes on from. -/
def advance : Turn → (op : Op) → Ret op → Turn
  | _, .bar coin _, _ => .observing coin
  | .observing coin, .observe _ _, .ok (action, _) => .following coin action
  | .following coin .enter, .time, ms => .ticked coin ms
  | .ticked coin ms, .evaluate intent _ _, _ =>
      .approved coin (intent.quoteAmount.getD 0) (seconds ms)
  | .following coin _, .positions, .ok ps =>
      if (positionOf coin ps).isSome then .closing coin else .idle
  | _, .submit _ _ _ _, _ => .idle
  | t, _, _ => t

def next (t : Turn) (op : Op) (r : Ret op) : Turn :=
  if op.passed r then t.advance op r else .idle

theorem next_passed {t : Turn} {op : Op} {r : Ret op} (h : op.passed r = true) :
    t.next op r = t.advance op r := if_pos h

theorem next_stopped {t : Turn} {op : Op} {r : Ret op} (h : op.passed r = false) :
    t.next op r = .idle := by
  unfold next
  rw [h]
  rfl

theorem next_observe {coin : String} {b : ClosedBar} {action : Action} {eq : ℚ}
    (h : action.isExit = true ∨ action = .enter) :
    Turn.next (.observing coin) (.observe coin b) (.ok (action, eq)) = .following coin action := by
  have hp : Op.passed (.observe coin b) (.ok (action, eq)) = true := by simpa [Op.passed] using h
  exact next_passed hp

theorem advance_positions {coin : String} {action : Action} {ps : List Position}
    (h : action ≠ .enter) : (Turn.following coin action).advance .positions (.ok ps) =
      if (positionOf coin ps).isSome then .closing coin else .idle := by
  cases action <;> rfl

end Turn

/-- The calls of the runner at a turn. -/
inductive Allowed : Turn → Op → Prop
  | args : Allowed .idle .args
  | now : Allowed .idle .time
  | bar {t coin ms} : t.exiting = none → Allowed t (.bar coin ms)
  | lastBar {coin} : Allowed (.observing coin) (.lastBar coin)
  | observe {coin b} : Allowed (.observing coin) (.observe coin b)
  | journal {coin a e} : Allowed (.following coin a) (.journal coin e)
  | resetEq {coin a} : Allowed (.following coin a) (.resetEq coin)
  | ledger {coin a} : Allowed (.following coin a) (.ledger coin)
  | deploys {coin a rs ts} : Allowed (.following coin a) (.deploys rs ts)
  | committee {coin a rs ts} : Allowed (.following coin a) (.committee rs ts)
  | collateral {coin a} : Allowed (.following coin a) .collateral
  | tick {coin} : Allowed (.following coin .enter) .time
  | evaluate {coin ms notional price wallet} : hlMin ≤ notional → Allowed (.ticked coin ms)
      (.evaluate (entryIntent coin notional) ⟨coin, price, seconds ms⟩ wallet)
  | railEnter {coin n ts cap ro} : Allowed (.approved coin n ts) (.rail cap ro)
  | stampEnter {coin n ts} : Allowed (.approved coin n ts) .time
  | enter {coin n ts id} :
      Allowed (.approved coin n ts) (.submit false (entryIntent coin n) id coin)
  | positions {coin a} : a ≠ .enter → Allowed (.following coin a) .positions
  | railClose {coin cap ro} : Allowed (.closing coin) (.rail cap ro)
  | stampClose {coin} : Allowed (.closing coin) .time
  | close {coin i id} : Allowed (.closing coin) (.submit true i id coin)

def protocol : Protocol Op Ret Turn := ⟨Allowed, Turn.next⟩

/-- A program leaves no exit under way. -/
def Ends {α : Type} (t : Turn) (_ : Except Raised α) : Prop := t.exiting = none

/-! ## The programs keep the protocol -/

section Programs
variable {coin : String} {action : Action} {t : Turn}

/-- A call that can raise: it is raised, or the program goes on. -/
theorem value_keeps {α β : Type} {f : α → M β} {Q : Turn → Except Raised β → Prop} :
    ∀ {x : Fallible α}, (∀ e, x = .error e → Q t (.error e)) →
      (∀ a, x = .ok a → protocol.Keeps t (f a) Q) → protocol.Keeps t (value x >>= f) Q
  | .ok a, _, h => h a rfl
  | .error e, h, _ => h e rfl

theorem gateOpen_keeps {Q : Turn → Except Raised Bool → Prop}
    (hopen : Q (.following coin action) (.ok true)) (hidle : ∀ r, r ≠ .ok true → Q .idle r) :
    protocol.Keeps (.following coin action) (gateOpen coin) Q := by
  refine ⟨.ledger, fun evs => value_keeps ?_ ?_⟩
  · rintro e rfl
    exact hidle _ (fun h => nomatch h)
  · rintro evs rfl
    refine ⟨.deploys, fun deploy => value_keeps ?_ ?_⟩
    · rintro e rfl
      exact hidle _ (fun h => nomatch h)
    · rintro (_ | _) rfl
      · exact hidle _ (fun h => nomatch h)
      · refine ⟨.committee, ?_⟩
        intro verdict
        rcases verdict with e | (_ | _)
        · exact hidle _ (fun h => nomatch h)
        · exact hidle _ (fun h => nomatch h)
        · exact hopen

theorem account_keeps {notional : ℚ} {out : Outcome} (ht : t.exiting = none) :
    protocol.Keeps t (account notional out) Ends := by
  unfold account
  rw [countsAsTrade_eq_false]
  exact ht

theorem executeEnter_keeps {notional price collateral : ℚ} :
    protocol.Keeps (.following coin .enter) (executeEnter coin notional price collateral) Ends := by
  unfold executeEnter
  split
  · exact rfl
  · next hmin =>
      refine ⟨.tick, fun now => ⟨.evaluate (not_lt.mp hmin), fun verdict => ?_⟩⟩
      obtain ⟨_ | _, reason⟩ := verdict
      · exact rfl
      · refine ⟨.railEnter, fun built => value_keeps ?_ ?_⟩
        · rintro e rfl
          exact rfl
        · rintro _ rfl
          refine ⟨.stampEnter, fun s => ⟨.enter, fun out => value_keeps ?_ ?_⟩⟩
          · rintro e rfl
            exact rfl
          · rintro out rfl
            exact account_keeps rfl

theorem executeClose_keeps (ha : action ≠ .enter) :
    protocol.Keeps (.following coin action) (executeClose coin) Ends := by
  refine ⟨.positions ha, fun listed => value_keeps ?_ ?_⟩
  · rintro e rfl
    exact rfl
  · rintro ps rfl
    have ht : protocol.next (.following coin action) .positions (.ok ps) =
        if (positionOf coin ps).isSome then .closing coin else .idle :=
      Turn.advance_positions ha
    rw [ht]
    cases positionOf coin ps with
    | none => exact rfl
    | some pos =>
        refine ⟨.railClose, fun built => value_keeps ?_ ?_⟩
        · rintro e rfl
          exact rfl
        · rintro _ rfl
          refine ⟨.stampClose, fun s => ⟨.close, fun out => value_keeps ?_ ?_⟩⟩
          · rintro e rfl
            exact rfl
          · rintro out rfl
            exact rfl

theorem maybeExecute_keeps {tier price : ℚ} :
    protocol.Keeps (.following coin action) (maybeExecute coin action tier price) Ends := by
  refine keeps_bind (gateOpen_keeps ?_ ?_)
  · refine ⟨.collateral, fun read => value_keeps ?_ ?_⟩
    · rintro e rfl
      exact rfl
    · rintro collateral rfl
      show Keeps _ _ (if _ then _ else _) _
      split
      · next ha =>
          subst ha
          exact executeEnter_keeps
      · next ha => exact executeClose_keeps ha
  · rintro (e | (_ | _)) h
    · exact rfl
    · exact rfl
    · exact absurd rfl h

theorem follow_keeps {tier eq : ℚ} {b : ClosedBar} (h : action.isExit = true ∨ action = .enter) :
    protocol.Keeps (.following coin action) (follow tier coin b action eq) Ends := by
  unfold follow
  split
  · refine ⟨.journal, fun written => value_keeps ?_ ?_⟩
    · rintro e rfl
      exact rfl
    · rintro _ rfl
      exact ⟨.resetEq, fun _ => maybeExecute_keeps⟩
  · next hexit =>
      obtain hexit' | rfl := h
      · exact absurd hexit' hexit
      · exact maybeExecute_keeps

/-- After a bar the runner follows an ENTER or an EXIT, and nothing else. -/
theorem observed_keeps {tier eq : ℚ} {b : ClosedBar} :
    protocol.Keeps (Turn.next (.observing coin) (.observe coin b) (.ok (action, eq)))
      (follow tier coin b action eq) Ends := by
  by_cases h : action.isExit = true ∨ action = .enter
  · rw [Turn.next_observe h]
    exact follow_keeps h
  · have hp : Op.passed (.observe coin b) (.ok (action, eq)) = false := by
      simpa [Op.passed] using h
    have hf : follow tier coin b action eq = return () := by
      rw [follow, if_neg fun he => h (Or.inl he), if_neg fun he => h (Or.inr he)]
    rw [Turn.next_stopped hp, hf]
    exact rfl

theorem coinBody_keeps {tier : ℚ} {nowMs : ℤ} (ht : t.exiting = none) :
    protocol.Keeps t (coinBody tier nowMs coin) Ends := by
  refine ⟨.bar ht, fun bar => value_keeps ?_ ?_⟩
  · rintro e rfl
    exact rfl
  · rintro (_ | b) rfl
    · exact rfl
    · refine ⟨.lastBar, fun (last : Option ℤ) => ?_⟩
      show Keeps _ _ (if last = some b.t then _ else _) _
      split
      · exact rfl
      · refine ⟨.observe, fun seen => value_keeps ?_ ?_⟩
        · rintro e rfl
          exact rfl
        · rintro ⟨action, eq⟩ rfl
          exact observed_keeps

theorem coinPass_keeps {tier : ℚ} {nowMs : ℤ} (ht : t.exiting = none) :
    protocol.Keeps t (coinPass tier nowMs coin) Ends := by
  refine keeps_tryCatch ((coinBody_keeps ht).mono ?_)
  rintro t' (_ | _) h
  · exact h
  · exact h

theorem coinPasses_keeps {tier : ℚ} {nowMs : ℤ} :
    ∀ {coins : List String} {t : Turn}, t.exiting = none →
      protocol.Keeps t (coinPasses tier nowMs coins) Ends
  | [], _, ht => ht
  | _ :: _, _, ht => by
      refine keeps_bind ((coinPass_keeps ht).mono ?_)
      rintro t' (_ | _) h
      · exact h
      · exact coinPasses_keeps h

theorem cycle_keeps : protocol.Keeps .idle cycle Ends :=
  ⟨.args, fun _ => ⟨.now, fun _ => coinPasses_keeps rfl⟩⟩

end Programs

end TreasuryForge.Autonomous

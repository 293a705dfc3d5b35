/-
# `Shadow.Basis` — the paper book of the basis carry, and restarts of both books

`treasuryforge/shadow_basis.py`.  Its ledger holds no convergence gain: the replay takes it for
what the return is more than the funding, which with exact numbers it is.
-/
import TreasuryForge.Shadow.Book
import Mathlib.Tactic.Ring

namespace TreasuryForge

namespace Shadow

open JsonText Replay

structure BasisBook where
  signal : BasisSignal
  equity : ℚ := 1
  returns : List ℚ := []
  realizedFunding : ℚ := 0
  realizedConvergence : ℚ := 0
  totalCosts : ℚ := 0
  nEntries : ℕ := 0
  nExits : ℕ := 0
  nHold : ℕ := 0
  prevPremium : ℚ := 0

structure BasisObservation where
  fundingRate : ℚ
  premium : ℚ
  ts : ℤ
  allowEntry : Bool := true

namespace BasisBook

/-- `_record`. -/
def record (b : BasisBook) (action : Str) (fundingRate convergence r : ℚ) : BasisBook :=
  let b :=
    if action = Str.of Action.enter.value then
      { b with nEntries := b.nEntries + 1, totalCosts := b.totalCosts + b.signal.p.entryCost }
    else if action = Str.of Action.hold.value then
      { b with nHold := b.nHold + 1, realizedFunding := b.realizedFunding + fundingRate,
               realizedConvergence := b.realizedConvergence + convergence }
    else if action = Str.of Action.exit.value then
      { b with nExits := b.nExits + 1, totalCosts := b.totalCosts + b.signal.p.exitCost }
    else b
  { b with equity := b.equity * (1 + r), returns := b.returns ++ [r] }

/-- The decision, after the cost gate. -/
def gated (b : BasisBook) (o : BasisObservation) : Action × BasisSignal :=
  costGate (fun s => { s with inPosition := false }) o.allowEntry (b.signal.decide o.premium)

/-- The convergence gain and the return of an action. -/
def gain (b : BasisBook) (action : Action) (o : BasisObservation) : ℚ × ℚ :=
  match action with
  | .enter => (0, -b.signal.p.entryCost)
  | .hold =>
      let convergence := b.prevPremium - o.premium
      (convergence, o.fundingRate + convergence)
  | .exit => (0, -b.signal.p.exitCost)
  | .flat => (0, 0)

/-- The premium the next interval's gain is measured from. -/
def anchored (b : BasisBook) (action : Action) (o : BasisObservation) : BasisBook :=
  match action with
  | .enter => { b with prevPremium := o.premium }
  | .hold => { b with prevPremium := o.premium }
  | .exit => b
  | .flat => b

def observe (b : BasisBook) (o : BasisObservation) : Action × BasisBook :=
  let (action, signal) := b.gated o
  let b := { b with signal }
  let (convergence, r) := b.gain action o
  (action, (b.anchored action o).record (Str.of action.value) o.fundingRate convergence r)

/-- The event `observe` appends. -/
def event (b : BasisBook) (o : BasisObservation) : List (String × Val ℚ) :=
  let (action, signal) := b.gated o
  [("kind", .str (Str.of "basis")), ("ts", .int o.ts), ("action", .str (Str.of action.value)),
    ("funding", .float o.fundingRate), ("premium", .float o.premium),
    ("r", .float ({ b with signal }.gain action o).2)]

/-- `_apply_stored`. -/
def applyStored (b : BasisBook) (action : Str) (fundingRate premium r : ℚ) : BasisBook :=
  let convergence := if action = Str.of Action.hold.value then r - fundingRate else 0
  let b := b.record action fundingRate convergence r
  let inPosition := action = Str.of Action.enter.value || action = Str.of Action.hold.value
  let b := { b with signal := { b.signal with inPosition } }
  if inPosition then { b with prevPremium := premium } else b

/-- What `__post_init__` does with one event of the ledger. -/
def replay (b : BasisBook) : Val ℚ → Option BasisBook
  | .dict ev =>
      if isKind ev "basis" then do
        let action ← (get? ev "action").bind toText
        let funding ← (get? ev "funding").bind Val.toFloat
        let premium ← (get? ev "premium").bind Val.toFloat
        let r ← (get? ev "r").bind Val.toFloat
        return b.applyStored action funding premium r
      else some b
  | _ => none

def journaled (p : BasisParams) : Journaled BasisBook BasisObservation Action where
  fresh := { signal := { p } }
  observe := observe
  event := event
  replay := replay

/-! ## An observation and its event -/

theorem gated_inside (b : BasisBook) (o : BasisObservation) :
    (b.gated o).2.inPosition = (b.gated o).1.inside ∧ (b.gated o).2.p = b.signal.p := by
  have hparams := b.signal.decide_params o.premium
  exact costGate_keeps
    (P := fun (action : Action) (signal : BasisSignal) =>
      signal.inPosition = action.inside ∧ signal.p = b.signal.p)
    ⟨b.signal.decide_inside o.premium, hparams⟩ ⟨rfl, hparams⟩ o.allowEntry

/-- The gain that is replayed is the one that was observed. -/
theorem gain_replayed (b : BasisBook) (action : Action) (o : BasisObservation) :
    (if action = .hold then (b.gain action o).2 - o.fundingRate else 0) = (b.gain action o).1 := by
  cases action with
  | hold =>
      show o.fundingRate + (b.prevPremium - o.premium) - o.fundingRate = b.prevPremium - o.premium
      ring
  | _ => rfl

/-- Going through the event of an observation does what the observation did. -/
theorem applyStored_eq (b : BasisBook) (o : BasisObservation) :
    b.applyStored (Str.of (b.gated o).1.value) o.fundingRate o.premium
      ({ b with signal := (b.gated o).2 }.gain (b.gated o).1 o).2 = (b.observe o).2 := by
  obtain ⟨hinside, hp⟩ := b.gated_inside o
  have hgain := { b with signal := (b.gated o).2 }.gain_replayed (b.gated o).1 o
  simp only [observe, applyStored, value_eq_iff, hgain]
  generalize b.gated o = g at hinside hp ⊢
  obtain ⟨action, signal⟩ := g
  simp only at hinside hp
  have hsignal : signal = { b.signal with inPosition := action.inside } := BasisSignal.ext hp hinside
  subst hsignal
  cases action <;> simp [record, anchored, value_eq_iff, Action.inside]

theorem faithful (fl : Floats ℚ) (p : BasisParams) : (journaled p).Faithful fl where
  names b o := by
    show ["kind", "ts", "action", "funding", "premium", "r"].Nodup
    decide
  plain b o m hm := by
    simp only [journaled, event, List.mem_cons, List.not_mem_nil, or_false] at hm
    rcases hm with rfl | rfl | rfl | rfl | rfl | rfl
    · exact plain_text _
    · exact plain_int _
    · exact plain_text _
    · exact plain_float _
    · exact plain_float _
    · exact plain_float _
  replay b o ev hget := by
    have hkind : get? ev "kind" = some (.str (Str.of "basis")) := hget _
    have haction : get? ev "action" = some (.str (Str.of (b.gated o).1.value)) := hget _
    have hfunding : get? ev "funding" = some (.float o.fundingRate) := hget _
    have hpremium : get? ev "premium" = some (.float o.premium) := hget _
    have hr : get? ev "r" = some
        (.float ({ b with signal := (b.gated o).2 }.gain (b.gated o).1 o).2) := hget _
    show replay b (.dict ev) = some (b.observe o).2
    simp only [replay, isKind, hkind, haction, hfunding, hpremium, hr, Option.bind_some,
      Option.bind_eq_bind, toText, Val.toFloat, decide_true, if_true]
    exact congrArg some (b.applyStored_eq o)

end BasisBook

/-- Both books, with restarts from their ledgers at any points: no restart fails, and the actions,
the book at the end and its ledger are those of the run that was never restarted. -/
theorem restart_transparent (fl : Floats ℚ) (p : FundingCarryParams) (minAge : ℤ) (q : BasisParams)
    (es : List (Event FundingObservation)) (es' : List (Event BasisObservation)) :
    let shadow := ShadowBook.journaled p minAge
    let basis := BasisBook.journaled q
    (shadow.program fl).run (shadow.fresh, []) es =
      some ((shadow.program fl).steps (shadow.fresh, []) (inputs es)) ∧
    (basis.program fl).run (basis.fresh, []) es' =
      some ((basis.program fl).steps (basis.fresh, []) (inputs es')) :=
  ⟨Program.run_transparent (Journaled.restartable (ShadowBook.faithful fl p minAge))
      Journaled.synced_fresh es,
    Program.run_transparent (Journaled.restartable (BasisBook.faithful fl q))
      Journaled.synced_fresh es'⟩

end Shadow

end TreasuryForge

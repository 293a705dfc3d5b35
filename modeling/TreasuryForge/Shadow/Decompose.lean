/-
# `Shadow.Decompose` — where the return of a paper book comes from

`decompose` of `treasuryforge/pnl_decomposition.py` goes through a ledger and adds up funding,
convergence and fees again.  What it finds is at every time a view of the book that wrote the
ledger (`decompose_ledger`), for either book (`ShadowBook.breakdown`, `BasisBook.breakdown`);
that the parts of this view add up to the returns is an invariant of the book itself.
-/
import TreasuryForge.Shadow.Basis

namespace TreasuryForge

namespace Shadow

open JsonText Lines Replay

@[ext]
structure PnlBreakdown where
  funding : ℚ := 0
  convergence : ℚ := 0
  entryFees : ℚ := 0
  exitFees : ℚ := 0
  slippage : ℚ := 0
  hedgeDrift : ℚ := 0
  nIntervals : ℕ := 0
  nHold : ℕ := 0
  deriving DecidableEq, Repr

/-- The action of an event is this one. -/
def isAction (ev : List (Key ℚ × Val ℚ)) (action : Action) : Bool :=
  match get? ev "action" with
  | some (.str s) => s = Str.of action.value
  | _ => false

namespace PnlBreakdown

def gross (d : PnlBreakdown) : ℚ := d.funding + d.convergence

def costs (d : PnlBreakdown) : ℚ := d.entryFees + d.exitFees + d.slippage + d.hedgeDrift

def net (d : PnlBreakdown) : ℚ := d.gross + d.costs

/-- What the loop does with one event; fails where it raises. -/
def add (d : PnlBreakdown) : Val ℚ → Option PnlBreakdown
  | .dict ev =>
      if isKind ev "shadow" || isKind ev "basis" then do
        let d := { d with nIntervals := d.nIntervals + 1 }
        let r ← ((get? ev "r").getD (.float 0)).toFloat
        if isAction ev .enter then return { d with entryFees := d.entryFees + r }
        else if isAction ev .exit then return { d with exitFees := d.exitFees + r }
        else if isAction ev .hold then
          let d := { d with nHold := d.nHold + 1 }
          let f ← ((get? ev "funding").getD (.float 0)).toFloat
          return { d with funding := d.funding + f, convergence := d.convergence + (r - f) }
        else return d
      else some d
  | _ => none

/-- What an action with this funding and this return adds. -/
def after (d : PnlBreakdown) (action : Action) (f r : ℚ) : PnlBreakdown :=
  let d := { d with nIntervals := d.nIntervals + 1 }
  match action with
  | .enter => { d with entryFees := d.entryFees + r }
  | .exit => { d with exitFees := d.exitFees + r }
  | .hold =>
      { d with
        nHold := d.nHold + 1, funding := d.funding + f, convergence := d.convergence + (r - f) }
  | .flat => d

theorem isAction_of {ev : List (Key ℚ × Val ℚ)} {action : Action}
    (h : get? ev "action" = some (.str (Str.of action.value))) (a : Action) :
    isAction ev a = decide (action = a) := by
  unfold isAction
  rw [h]
  exact decide_eq_decide.mpr value_eq_iff

/-- An event that a book wrote adds what its action does. -/
theorem add_event (d : PnlBreakdown) {ev : List (Key ℚ × Val ℚ)} {action : Action} {f r : ℚ}
    (hkind : (isKind ev "shadow" || isKind ev "basis") = true)
    (haction : get? ev "action" = some (.str (Str.of action.value)))
    (hfunding : get? ev "funding" = some (.float f)) (hr : get? ev "r" = some (.float r)) :
    d.add (.dict ev) = some (d.after action f r) := by
  have hrec := isAction_of haction
  rw [add, if_pos hkind, hr, hfunding, hrec, hrec, hrec]
  cases action <;> rfl

/-- The return of an action, whichever part it is counted under. -/
theorem net_after (d : PnlBreakdown) {action : Action} {r : ℚ} (f : ℚ)
    (hflat : action = .flat → r = 0) : (d.after action f r).net = d.net + r := by
  cases action with
  | flat => rw [hflat rfl, add_zero]; rfl
  | _ =>
      simp only [after, net, gross, costs]
      ring

end PnlBreakdown

/-- Fails where the loop raises. -/
def decompose (events : List (Val ℚ)) : Option PnlBreakdown :=
  events.foldlM PnlBreakdown.add {}

/-! ## A view of the book -/

namespace Journaled

variable {B O A : Type} {J : Journaled B O A} {fl : Floats ℚ}

/-- The events of a book add up to this view of it. -/
structure Accounted (J : Journaled B O A) (view : B → PnlBreakdown) : Prop where
  fresh : view J.fresh = {}
  event : ∀ b o ev, (∀ name, get? ev name = (J.event b o).lookup name) →
    (view b).add (.dict ev) = some (view (J.observe b o).2)

variable {view : B → PnlBreakdown}

/-- The ledger of a book decomposes into the view of the book. -/
theorem decompose_ledger (hf : J.Faithful fl) (ha : J.Accounted view) (obs : List O) :
    let σ := ((J.program fl).steps (J.fresh, []) obs).2
    decompose (Journal.readLedger fl σ.2) = some (view σ.1) := by
  let Good (σ : B × List Char) : Prop :=
    Closed σ.2 ∧ decompose (Journal.readLedger fl σ.2) = some (view σ.1)
  refine ((J.program fl).steps_keeps Good ?_ ⟨Or.inl rfl, ?_⟩ obs).2
  · rintro ⟨b, file⟩ ⟨hclosed, hview⟩ o
    obtain ⟨ev, hget, hclosed', hread⟩ := appended hf hclosed b o
    refine ⟨hclosed', ?_⟩
    show decompose (Journal.readLedger fl (Journal.appendEvent fl file (fields (J.event b o)))) =
      some (view (J.observe b o).2)
    rw [hread, decompose, List.foldlM_append]
    rw [decompose] at hview
    rw [hview]
    exact (bind_pure _).trans (ha.event b o ev hget)
  · exact congrArg some ha.fresh.symm

end Journaled

/-! ## The paper book of the funding carry -/

namespace ShadowBook

/-- What the book says of its own return. -/
def breakdown (b : ShadowBook) : PnlBreakdown where
  funding := b.realizedFunding
  entryFees := -(b.nEntries * b.signal.p.entryCost)
  exitFees := -(b.nExits * b.signal.p.exitCost)
  nIntervals := b.returns.length
  nHold := b.nHold

/-- The counters and totals of the book are those of its returns. -/
structure Sums (b : ShadowBook) : Prop where
  returns : b.returns.sum = b.breakdown.net
  costs : b.totalCosts = b.nEntries * b.signal.p.entryCost + b.nExits * b.signal.p.exitCost

/-- An observation, with the branch of its action taken. -/
theorem observe_eq (b : ShadowBook) (o : FundingObservation) :
    ∃ action signal, b.gated o = (action, signal) ∧ signal.p = b.signal.p ∧
      (b.observe o).2 =
        ({ b with signal }).apply (Str.of action.value) o.fundingRate
          (({ b with signal }).returnFor action o.fundingRate) :=
  ⟨(b.gated o).1, (b.gated o).2, rfl, (b.gated_inside o).2.1, rfl⟩

theorem breakdown_observe (b : ShadowBook) (o : FundingObservation) :
    (b.observe o).2.breakdown = b.breakdown.after (b.gated o).1 o.fundingRate
      (({ b with signal := (b.gated o).2 }).returnFor (b.gated o).1 o.fundingRate) := by
  obtain ⟨action, signal, hgated, hp, hobserve⟩ := b.observe_eq o
  rw [hobserve, hgated]
  cases action <;>
    simp [apply, value_eq_iff, breakdown, PnlBreakdown.after, returnFor, hp] <;> ring

theorem events_accounted (p : FundingCarryParams) (minAge : ℤ) :
    (journaled p minAge).Accounted breakdown where
  fresh := by
    simp [journaled, breakdown]
  event b o ev hget := by
    have hkind : get? ev "kind" = some (.str (Str.of "shadow")) := hget _
    show b.breakdown.add (.dict ev) = some (b.observe o).2.breakdown
    rw [breakdown_observe]
    refine PnlBreakdown.add_event _ ?_ (hget _) (hget _) (hget _)
    simp [isKind, hkind]

theorem returns_apply (b : ShadowBook) (action : Str) (fundingRate r : ℚ) :
    (b.apply action fundingRate r).returns = b.returns ++ [r] := by
  unfold apply
  dsimp only
  split
  · rfl
  · split
    · rfl
    · split <;> rfl

theorem sums_fresh (signal : FundingCarrySignal) : ({ signal } : ShadowBook).Sums where
  returns := by simp [breakdown, PnlBreakdown.net, PnlBreakdown.gross, PnlBreakdown.costs]
  costs := by simp

theorem Sums.observe {b : ShadowBook} (h : b.Sums) (o : FundingObservation) :
    (b.observe o).2.Sums := by
  have hbreakdown := b.breakdown_observe o
  obtain ⟨action, signal, hgated, hp, hobserve⟩ := b.observe_eq o
  constructor
  · rw [hbreakdown, hobserve, returns_apply, List.sum_append, List.sum_singleton, hgated,
      PnlBreakdown.net_after _ _ fun hflat => ?_, ← h.returns]
    rw [show action = .flat from hflat]
    rfl
  · rw [hobserve]
    cases action <;> simp [apply, value_eq_iff, hp, h.costs] <;> ring

end ShadowBook

/-! ## The paper book of the basis carry -/

namespace BasisBook

/-- What the book says of its own return. -/
def breakdown (b : BasisBook) : PnlBreakdown where
  funding := b.realizedFunding
  convergence := b.realizedConvergence
  entryFees := -(b.nEntries * b.signal.p.entryCost)
  exitFees := -(b.nExits * b.signal.p.exitCost)
  nIntervals := b.returns.length
  nHold := b.nHold

structure Sums (b : BasisBook) : Prop where
  returns : b.returns.sum = b.breakdown.net
  costs : b.totalCosts = b.nEntries * b.signal.p.entryCost + b.nExits * b.signal.p.exitCost

theorem observe_eq (b : BasisBook) (o : BasisObservation) :
    ∃ action signal, b.gated o = (action, signal) ∧ signal.p = b.signal.p ∧
      (b.observe o).2 =
        (({ b with signal }).anchored action o).record (Str.of action.value) o.fundingRate
          (({ b with signal }).gain action o).1 (({ b with signal }).gain action o).2 :=
  ⟨(b.gated o).1, (b.gated o).2, rfl, (b.gated_inside o).2, rfl⟩

theorem breakdown_observe (b : BasisBook) (o : BasisObservation) :
    (b.observe o).2.breakdown = b.breakdown.after (b.gated o).1 o.fundingRate
      (({ b with signal := (b.gated o).2 }).gain (b.gated o).1 o).2 := by
  obtain ⟨action, signal, hgated, hp, hobserve⟩ := b.observe_eq o
  rw [hobserve, hgated]
  cases action <;>
    simp [record, anchored, value_eq_iff, breakdown, PnlBreakdown.after, gain, hp] <;> ring

theorem events_accounted (p : BasisParams) : (journaled p).Accounted breakdown where
  fresh := by
    simp [journaled, breakdown]
  event b o ev hget := by
    have hkind : get? ev "kind" = some (.str (Str.of "basis")) := hget _
    show b.breakdown.add (.dict ev) = some (b.observe o).2.breakdown
    rw [breakdown_observe]
    refine PnlBreakdown.add_event _ ?_ (hget _) (hget _) (hget _)
    simp [isKind, hkind]

theorem returns_anchored (b : BasisBook) (action : Action) (o : BasisObservation) :
    (b.anchored action o).returns = b.returns := by
  cases action <;> rfl

theorem returns_record (b : BasisBook) (action : Str) (fundingRate convergence r : ℚ) :
    (b.record action fundingRate convergence r).returns = b.returns ++ [r] := by
  unfold record
  dsimp only
  split
  · rfl
  · split
    · rfl
    · split <;> rfl

theorem sums_fresh (signal : BasisSignal) : ({ signal } : BasisBook).Sums where
  returns := by simp [breakdown, PnlBreakdown.net, PnlBreakdown.gross, PnlBreakdown.costs]
  costs := by simp

theorem Sums.observe {b : BasisBook} (h : b.Sums) (o : BasisObservation) :
    (b.observe o).2.Sums := by
  have hbreakdown := b.breakdown_observe o
  obtain ⟨action, signal, hgated, hp, hobserve⟩ := b.observe_eq o
  constructor
  · rw [hbreakdown, hobserve, returns_record, returns_anchored, List.sum_append,
      List.sum_singleton, hgated, PnlBreakdown.net_after _ _ fun hflat => ?_, ← h.returns]
    rw [show action = .flat from hflat]
    rfl
  · rw [hobserve]
    cases action <;> simp [record, anchored, value_eq_iff, hp, h.costs] <;> ring

end BasisBook

/-! ## Either book -/

/-- A decomposition says what a book says. -/
structure Reconciles (d : PnlBreakdown) (returns : List ℚ)
    (realizedFunding realizedConvergence totalCosts : ℚ) (nHold : ℕ) : Prop where
  net : d.net = returns.sum
  funding : d.funding = realizedFunding
  convergence : d.convergence = realizedConvergence
  fees : d.entryFees + d.exitFees = -totalCosts
  nHold : d.nHold = nHold

theorem ShadowBook.Sums.reconciles {b : ShadowBook} (h : b.Sums) :
    Reconciles b.breakdown b.returns b.realizedFunding 0 b.totalCosts b.nHold where
  net := h.returns.symm
  funding := rfl
  convergence := rfl
  fees := by
    rw [h.costs]
    exact (neg_add _ _).symm
  nHold := rfl

theorem BasisBook.Sums.reconciles {b : BasisBook} (h : b.Sums) :
    Reconciles b.breakdown b.returns b.realizedFunding b.realizedConvergence b.totalCosts
      b.nHold where
  net := h.returns.symm
  funding := rfl
  convergence := rfl
  fees := by
    rw [h.costs]
    exact (neg_add _ _).symm
  nHold := rfl

/-- For either book, with restarts at any points: the ledger it leaves decomposes, and into the
sum of its returns, its funding and convergence, its costs and its intervals in position. -/
theorem decompose_reconciles (fl : Floats ℚ) (p : FundingCarryParams) (minAge : ℤ)
    (q : BasisParams) (es : List (Event FundingObservation)) (es' : List (Event BasisObservation)) :
    let shadow := ShadowBook.journaled p minAge
    let basis := BasisBook.journaled q
    (∃ actions b file d, (shadow.program fl).run (shadow.fresh, []) es = some (actions, b, file) ∧
      decompose (Journal.readLedger fl file) = some d ∧
      Reconciles d b.returns b.realizedFunding 0 b.totalCosts b.nHold) ∧
    ∃ actions b file d, (basis.program fl).run (basis.fresh, []) es' = some (actions, b, file) ∧
      decompose (Journal.readLedger fl file) = some d ∧
      Reconciles d b.returns b.realizedFunding b.realizedConvergence b.totalCosts b.nHold := by
  intro shadow basis
  obtain ⟨hshadow, hbasis⟩ := restart_transparent fl p minAge q es es'
  constructor
  · have hsums : ((shadow.program fl).steps (shadow.fresh, []) (inputs es)).2.1.Sums :=
      (shadow.program fl).steps_keeps (fun σ => σ.1.Sums) (fun h o => h.observe o)
        (ShadowBook.sums_fresh _) (inputs es)
    exact ⟨_, _, _, _, hshadow,
      Journaled.decompose_ledger (ShadowBook.faithful fl p minAge)
        (ShadowBook.events_accounted p minAge) _,
      hsums.reconciles⟩
  · have hsums : ((basis.program fl).steps (basis.fresh, []) (inputs es')).2.1.Sums :=
      (basis.program fl).steps_keeps (fun σ => σ.1.Sums) (fun h o => h.observe o)
        (BasisBook.sums_fresh _) (inputs es')
    exact ⟨_, _, _, _, hbasis,
      Journaled.decompose_ledger (BasisBook.faithful fl q) (BasisBook.events_accounted q) _,
      hsums.reconciles⟩

end Shadow

end TreasuryForge

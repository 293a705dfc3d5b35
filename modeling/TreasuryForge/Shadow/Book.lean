/-
# `Shadow.Book` — the paper book of the funding carry

`treasuryforge/shadow.py`.  The ledger holds actions, funding rates, returns and the age of the
episode; the rest of the book, and the position of the signal, are rebuilt from these.
-/
import TreasuryForge.Shadow.Journaled
import TreasuryForge.Shadow.Signals

namespace TreasuryForge

namespace Shadow

open JsonText

structure ShadowBook where
  signal : FundingCarrySignal
  equity : ℚ := 1
  returns : List ℚ := []
  realizedFunding : ℚ := 0
  totalCosts : ℚ := 0
  nEntries : ℕ := 0
  nExits : ℕ := 0
  nHold : ℕ := 0

/-- What `observe` is called with. -/
structure FundingObservation where
  fundingRate : ℚ
  ts : ℤ
  allowEntry : Bool := true

/-! ## Actions in the ledger -/

theorem value_eq_iff {a a' : Action} : Str.of a.value = Str.of a'.value ↔ a = a' := by
  rw [of_injective.eq_iff]
  cases a <;> cases a' <;> decide

theorem value_inside (a : Action) :
    (decide (Str.of a.value = Str.of Action.enter.value) ||
      decide (Str.of a.value = Str.of Action.hold.value)) = a.inside := by
  cases a <;> decide

namespace ShadowBook

def returnFor (b : ShadowBook) (action : Action) (fundingRate : ℚ) : ℚ :=
  match action with
  | .enter => -b.signal.p.entryCost
  | .hold => fundingRate
  | .exit => -b.signal.p.exitCost
  | .flat => 0

/-- `_apply`, without the event. -/
def apply (b : ShadowBook) (action : Str) (fundingRate r : ℚ) : ShadowBook :=
  let b := { b with equity := b.equity * (1 + r), returns := b.returns ++ [r] }
  if action = Str.of Action.enter.value then
    { b with nEntries := b.nEntries + 1, totalCosts := b.totalCosts + b.signal.p.entryCost }
  else if action = Str.of Action.hold.value then
    { b with nHold := b.nHold + 1, realizedFunding := b.realizedFunding + fundingRate }
  else if action = Str.of Action.exit.value then
    { b with nExits := b.nExits + 1, totalCosts := b.totalCosts + b.signal.p.exitCost }
  else b

/-- The decision, after the cost gate. -/
def gated (b : ShadowBook) (o : FundingObservation) : Action × FundingCarrySignal :=
  costGate (fun s => { s with inPosition := false }) o.allowEntry (b.signal.decide o.fundingRate)

def observe (b : ShadowBook) (o : FundingObservation) : Action × ShadowBook :=
  let (action, signal) := b.gated o
  let b := { b with signal }
  (action, b.apply (Str.of action.value) o.fundingRate (b.returnFor action o.fundingRate))

/-- The event `observe` appends, at the end of `_apply`. -/
def event (b : ShadowBook) (o : FundingObservation) : List (String × Val ℚ) :=
  let (action, signal) := b.gated o
  [("kind", .str (Str.of "shadow")), ("ts", .int o.ts), ("action", .str (Str.of action.value)),
    ("funding", .float o.fundingRate),
    ("r", .float ({ b with signal }.returnFor action o.fundingRate)), ("age", .int signal.age)]

/-- What `__post_init__` does with one event of the ledger. -/
def replay (b : ShadowBook) : Val ℚ → Option ShadowBook
  | .dict ev =>
      if isKind ev "shadow" then do
        let action ← (get? ev "action").bind toText
        let funding ← (get? ev "funding").bind Val.toFloat
        let r ← (get? ev "r").bind Val.toFloat
        let age ← ((get? ev "age").getD (.int 0)).toInt
        let b := b.apply action funding r
        let inPosition := action = Str.of Action.enter.value || action = Str.of Action.hold.value
        return { b with signal := { b.signal with inPosition, age } }
      else some b
  | _ => none

/-- A book with no observations, whose journal is empty. -/
def journaled (p : FundingCarryParams) (minAge : ℤ) :
    Journaled ShadowBook FundingObservation Action where
  fresh := { signal := { p, minAge } }
  observe := observe
  event := event
  replay := replay

/-! ## An observation and its event -/

theorem gated_inside (b : ShadowBook) (o : FundingObservation) :
    (b.gated o).2.inPosition = (b.gated o).1.inside ∧ (b.gated o).2.p = b.signal.p ∧
      (b.gated o).2.minAge = b.signal.minAge := by
  have hparams := b.signal.decide_params o.fundingRate
  exact costGate_keeps
    (P := fun (action : Action) (signal : FundingCarrySignal) =>
      signal.inPosition = action.inside ∧ signal.p = b.signal.p ∧ signal.minAge = b.signal.minAge)
    ⟨b.signal.decide_inside o.fundingRate, hparams⟩ ⟨rfl, hparams⟩ o.allowEntry

/-- What is applied depends on the parameters of the signal only. -/
theorem apply_signal (b : ShadowBook) {signal : FundingCarrySignal} (hp : signal.p = b.signal.p)
    (action : Str) (fundingRate r : ℚ) : ({ b with signal }).apply action fundingRate r =
      { b.apply action fundingRate r with signal } := by
  unfold apply
  simp only [hp]
  split
  · rfl
  · split
    · rfl
    · split <;> rfl

theorem apply_keeps (b : ShadowBook) (action : Str) (fundingRate r : ℚ) :
    (b.apply action fundingRate r).signal = b.signal := by
  unfold apply
  dsimp only
  split
  · rfl
  · split
    · rfl
    · split <;> rfl

theorem faithful (fl : Floats ℚ) (p : FundingCarryParams) (minAge : ℤ) :
    (journaled p minAge).Faithful fl where
  names b o := by
    show ["kind", "ts", "action", "funding", "r", "age"].Nodup
    decide
  plain b o m hm := by
    simp only [journaled, event, List.mem_cons, List.not_mem_nil, or_false] at hm
    rcases hm with rfl | rfl | rfl | rfl | rfl | rfl
    · exact plain_text _
    · exact plain_int _
    · exact plain_text _
    · exact plain_float _
    · exact plain_float _
    · exact plain_int _
  replay b o ev hget := by
    have hkind : get? ev "kind" = some (.str (Str.of "shadow")) := hget _
    have haction : get? ev "action" = some (.str (Str.of (b.gated o).1.value)) := hget _
    have hfunding : get? ev "funding" = some (.float o.fundingRate) := hget _
    have hr : get? ev "r" = some (.float
        (({ b with signal := (b.gated o).2 }).returnFor (b.gated o).1 o.fundingRate)) := hget _
    have hage : get? ev "age" = some (.int (b.gated o).2.age) := hget _
    obtain ⟨hinside, hp, hmin⟩ := b.gated_inside o
    have hsignal : { b.signal with inPosition := (b.gated o).1.inside, age := (b.gated o).2.age } =
        (b.gated o).2 := FundingCarrySignal.ext hp.symm hmin.symm hinside.symm rfl
    show replay b (.dict ev) = some (b.observe o).2
    simp only [replay, isKind, hkind, haction, hfunding, hr, hage, Option.bind_some,
      Option.getD_some, Option.bind_eq_bind, toText, Val.toFloat, Val.toInt, value_inside,
      apply_keeps, hsignal, decide_true, if_true, observe]
    exact congrArg some (b.apply_signal hp _ _ _).symm

end ShadowBook

end Shadow

end TreasuryForge

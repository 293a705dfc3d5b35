/-
# `Live.Attribution` — the intent behind a reported fill

A step of the supervisor hands the intent it approved to the order manager, with an id
and a symbol that are both the tick's:

    origin_for    make_origin_id("live", tick.ts, tick.symbol)
    submit        intent, origin_id, tick.symbol

The manager answers for the id.  A second intent under an id that was used is told what
became of the first, and an intent for another symbol is filled under the tick's
(`replayed_fill`).  `fills_owned` says that nothing else goes wrong: in a
run in which every approved intent has the tick's symbol and an id of its own, a step
reported FILLED carries a fill of the intent approved in it.  The supervisor runs on a
`Desk`, so the exchange may answer in any way and move at any moment, and the process may
recover its orders or start again between two steps.
-/
import TreasuryForge.Live.Supervisor
import TreasuryForge.Orders.Attribution

namespace TreasuryForge

open Resume Orders Window

namespace LiveSupervisor

variable {A σ : Type}

/-! ## Runs -/

/-- A step reported FILLED: its tick, the intent approved in it, the fill in its outcome. -/
structure Report where
  tick : MarketTick
  intent : Option Intent
  fill : Option Fill
  deriving DecidableEq

/-- The id the default `origin_for` gives. -/
def tickId (tick : MarketTick) : String := makeOriginId "live" tick.ts tick.symbol

/-- A run so far: the state, with the POSTs that were sent; the intents that were approved;
the steps that were reported FILLED. -/
structure Blotter (A σ : Type) where
  state : LiveState A (σ × Intents)
  approved : Intents := []
  filled : List Report := []

inductive Move (A : Type) where
  | step (tick : MarketTick) (wallet : SimWallet) (nowW nowM : ℤ)
  /-- everything in the supervisor but its orders is changed to this -/
  | elsewhere (policy : PolicyEngine) (agent : A) (staleness : StalenessGate)
      (heartbeat : Option Heartbeat)
  | recover
  /-- the manager is built again from the journal it left -/
  | restart

variable {v : Venue} (d : Desk v σ) (agent : Strategy A)

/-- The supervisor on a desk, with the default `origin_for`. -/
def onDesk : LiveSupervisor A (σ × Intents) where
  agent := agent
  rail := posts.track d.rail

/-- What a step adds to the reports. -/
def reported (tick : MarketTick) (intent : Option Intent) : Except Raised StepResult → List Report
  | .ok r => if r.kind = .filled then [⟨tick, intent, r.outcome.bind Outcome.fill⟩] else []
  | .error _ => []

def move (x : Blotter A σ) : Move A → Blotter A σ
  | .step tick wallet nowW nowM =>
      let intent := (onDesk d agent).approval x.state tick wallet nowW nowM
      let (result, state) := (onDesk d agent).step x.state tick wallet nowW nowM
      { state := state
        approved := x.approved ++ intent.toList.map fun i => (tickId tick, i)
        filled := x.filled ++ reported tick intent result }
  | .elsewhere policy agent staleness heartbeat =>
      { x with state := {
          policy := policy, agent := agent, staleness := staleness, heartbeat := heartbeat,
          rail := x.state.rail } }
  | .recover =>
      { x with state := { x.state with
          rail := ((Orders.recover Dict.empty).eval (posts.track d.rail) x.state.rail).2 } }
  | .restart =>
      match d.reboot x.state.rail.1 with
      | none => x
      | some s => { x with state := { x.state with rail := (s, x.state.rail.2) } }

/-- An intent that is approved has the tick's symbol, and no other intent was approved
under its id. -/
def Distinct (x : Blotter A σ) : Move A → Prop
  | .step tick wallet nowW nowM =>
      ∀ i ∈ (onDesk d agent).approval x.state tick wallet nowW nowM,
        i.symbol = tick.symbol ∧ (i.symbol = "" → v = .bitso) ∧
        ∀ p ∈ x.approved, p.1 = tickId tick → p.2 = i
  | _ => True

instance (x : Blotter A σ) (m : Move A) : Decidable (Distinct d agent x m) :=
  match m with
  | .step _ _ _ _ => by unfold Distinct; infer_instance
  | .elsewhere _ _ _ _ | .recover | .restart => isTrue trivial

/-- The fill that was reported is of the intent approved in the step: it has its symbol
and its side, it is made of trades of orders under its id, and every POST under that id,
of which there is one, was of this intent. -/
def Owned (x : Blotter A σ) (rep : Report) : Prop :=
  ∃ i f, rep.intent = some i ∧ rep.fill = some f ∧ f.symbol = i.symbol ∧ f.side = i.side ∧
    (d.world x.state.rail.1).exch.Executes (tickId rep.tick) (asdict f) ∧
    (tickId rep.tick, i) ∈ x.state.rail.2 ∧
    ∀ p ∈ x.state.rail.2, p.1 = tickId rep.tick → p.2 = i

/-- The same for now: the intent was approved under the id. -/
def Matched (exch : Exchange) (approved : Intents) (rep : Report) : Prop :=
  ∃ i f, rep.intent = some i ∧ rep.fill = some f ∧ f.symbol = i.symbol ∧ f.side = i.side ∧
    exch.Executes (tickId rep.tick) (asdict f) ∧ (tickId rep.tick, i) ∈ approved

structure Sorted (x : Blotter A σ) : Prop where
  kept : d.Kept x.approved x.state.rail
  distinct : ∀ p ∈ x.approved, ∀ q ∈ x.approved, p.1 = q.1 → p.2 = q.2
  matched : ∀ rep ∈ x.filled, Matched (d.world x.state.rail.1).exch x.approved rep

variable {d agent} {x : Blotter A σ}

theorem Matched.later {exch exch' : Exchange} {approved approved' : Intents} {rep : Report}
    (h : Matched exch approved rep) (hg : exch.Grows exch') (ha : approved ⊆ approved') :
    Matched exch' approved' rep := by
  obtain ⟨i, f, hi, hf, hsymbol, hside, hexec, hmem⟩ := h
  exact ⟨i, f, hi, hf, hsymbol, hside, hexec.later hg, ha hmem⟩

/-- What was approved under one id is one intent, so what was POSTed under it is too. -/
theorem Sorted.owned (h : Sorted d x) : ∀ rep ∈ x.filled, Owned d x rep := by
  intro rep hrep
  obtain ⟨i, f, hi, hf, hsymbol, hside, hexec, hmem⟩ := h.matched rep hrep
  have hone : ∀ p ∈ x.state.rail.2, p.1 = tickId rep.tick → p.2 = i :=
    fun p hp ho => h.distinct p (h.kept.posted p hp) _ hmem ho
  obtain ⟨ord, hord, horigin⟩ := hexec.landed
  obtain ⟨j, hj⟩ := h.kept.landed ord hord
  rw [horigin] at hj
  obtain rfl := hone _ hj rfl
  exact ⟨j, f, hi, hf, hsymbol, hside, hexec, hj, hone⟩

/-- The orders moved on while nothing was approved or reported. -/
theorem Sorted.orders {rail : σ × Intents} (h : Sorted d x) (hkept : d.Kept x.approved rail)
    (hg : (d.world x.state.rail.1).exch.Grows (d.world rail.1).exch) :
    Sorted d { x with state := { x.state with rail := rail } } where
  kept := hkept
  distinct := h.distinct
  matched rep hrep := (h.matched rep hrep).later hg (List.Subset.refl _)

theorem reported_eq_nil {tick : MarketTick} {intent : Option Intent}
    {result : Except Raised StepResult} (h : ∀ r, result = .ok r → r.kind ≠ .filled) :
    reported tick intent result = [] := by
  cases result with
  | error _ => rfl
  | ok r => exact if_neg (h r rfl)

/-- An outcome is reported FILLED only when the order is. -/
theorem outcomeKind_filled {state : OrderState} (h : outcomeKind state = .filled) :
    state = .filled := by
  cases state <;> first | rfl | cases h

/-- What is reported of an intent the manager was given is told of an order for it. -/
theorem reported_matched {tick : MarketTick} {i : Intent} {approved : Intents} {rail : σ × Intents}
    {told : Except Raised Outcome} (h : d.Settled approved (tickId tick) i rail told)
    (hi : (tickId tick, i) ∈ approved) :
    ∀ rep ∈ reported tick (some i)
        (told.map fun out => ⟨outcomeKind out.state, out.reason, some out⟩),
      Matched (d.world rail.1).exch approved rep := by
  intro rep hrep
  cases told with
  | error _ => exact absurd hrep List.not_mem_nil
  | ok out =>
      change rep ∈ (if _ then _ else _) at hrep
      split at hrep
      · next hk =>
          rw [List.mem_singleton.mp hrep]
          obtain ⟨f, hf, hsymbol, hside, hexec⟩ := h.filled rfl (outcomeKind_filled hk)
          exact ⟨i, f, rfl, hf, hsymbol, hside, hexec, hi⟩
      · exact absurd hrep List.not_mem_nil

theorem distinct_snoc {approved : Intents} {o : String} {i : Intent}
    (h : ∀ p ∈ approved, ∀ q ∈ approved, p.1 = q.1 → p.2 = q.2)
    (hi : ∀ p ∈ approved, p.1 = o → p.2 = i) :
    ∀ p ∈ approved ++ [(o, i)], ∀ q ∈ approved ++ [(o, i)], p.1 = q.1 → p.2 = q.2 := by
  intro p hp q hq hpq
  rcases List.mem_append.mp hp with hp | hp <;> rcases List.mem_append.mp hq with hq | hq
  · exact h p hp q hq hpq
  · rw [List.mem_singleton.mp hq] at hpq ⊢
    exact hi p hp hpq
  · rw [List.mem_singleton.mp hp] at hpq ⊢
    exact (hi q hq hpq.symm).symm
  · rw [List.mem_singleton.mp hp, List.mem_singleton.mp hq]

theorem Sorted.step {tick : MarketTick} {wallet : SimWallet} {nowW nowM : ℤ} (h : Sorted d x)
    (hm : Distinct d agent x (.step tick wallet nowW nowM)) :
    Sorted d (move d agent x (.step tick wallet nowW nowM)) := by
  have hcase : (onDesk d agent).StepCase x.state tick wallet nowW nowM _ _ _ := step_cases
  cases happ : (onDesk d agent).approval x.state tick wallet nowW nowM with
  | none =>
      rw [happ] at hcase
      obtain ⟨hrail, hnot⟩ := hcase.unapproved
      constructor <;> simp only [move, happ, Option.toList_none, List.map_nil, List.append_nil,
        hrail, reported_eq_nil hnot]
      · exact h.kept
      · exact h.distinct
      · exact h.matched
  | some i =>
      obtain ⟨hsymbol, hnamed, hown⟩ := hm i happ
      rw [happ] at hcase
      obtain _ | _ | ⟨rfl, _, _, hresult, _, hrail⟩ := hcase
      have hin : (tickId tick, i) ∈ x.approved ++ [(tickId tick, i)] :=
        List.mem_append_right _ (List.mem_singleton.mpr rfl)
      have hsub : x.approved ⊆ x.approved ++ [(tickId tick, i)] := List.subset_append_left _ _
      have hdistinct := distinct_snoc h.distinct hown
      have hsettled : d.wp x.state.rail (Orders.submit i (tickId tick) i.symbol 3)
          (d.Settled (x.approved ++ [(tickId tick, i)]) (tickId tick) i) :=
        Desk.submit_wp (Attributed.mono h.kept hsub) hin
          (fun j hj => hdistinct _ hj _ hin rfl) hnamed
      rw [hsymbol] at hsettled
      have hg := d.grows_eval (Orders.submit i (tickId tick) tick.symbol 3) x.state.rail
      constructor <;> simp only [move, happ, Option.toList_some, List.map_cons, List.map_nil,
        hrail, hresult]
      · exact hsettled.1
      · exact hdistinct
      · intro rep hrep
        rcases List.mem_append.mp hrep with hrep | hrep
        · exact (h.matched rep hrep).later hg hsub
        · exact reported_matched hsettled hin rep hrep

theorem Sorted.move {m : Move A} (h : Sorted d x) (hm : Distinct d agent x m) :
    Sorted d (move d agent x m) := by
  cases m with
  | step tick wallet nowW nowM => exact h.step hm
  | elsewhere _ _ _ _ => exact ⟨h.kept, h.distinct, h.matched⟩
  | recover => exact h.orders (Desk.recover_wp h.kept) (d.grows_eval _ _)
  | restart =>
      have hboot := d.reboots x.state.rail.1
      simp only [LiveSupervisor.move]
      cases hr : d.reboot x.state.rail.1 with
      | none => exact h
      | some s =>
          rw [hr] at hboot
          obtain ⟨_, _, hexch, _⟩ := World.reboot_eq_some hboot
          refine h.orders (Attributed.reboot h.kept hboot) ?_
          rw [show (d.world s).exch = _ from hexch]
          exact .refl _

/-- On a new journal, in a run in which every approved intent has the tick's symbol and
an id of its own, every fill reported is of the intent approved in its step. -/
theorem fills_owned {s : LiveState A (σ × Intents)} {moves : List (Move A)}
    (hworld : d.world s.rail.1 = {}) (hsent : s.rail.2 = [])
    (h : Along (move d agent) (Distinct d agent) ⟨s, [], []⟩ moves) :
    ∀ rep ∈ (moves.foldl (move d agent) ⟨s, [], []⟩).filled,
      Owned d (moves.foldl (move d agent) ⟨s, [], []⟩) rep := by
  have hstart : Sorted d (⟨s, [], []⟩ : Blotter A σ) := by
    refine ⟨?_, fun _ hp => absurd hp List.not_mem_nil, fun _ hr => absurd hr List.not_mem_nil⟩
    show Attributed v [] (d.world s.rail.1) s.rail.2
    rw [hworld, hsent]
    exact attributed_fresh
  have hend := Along.induction (I := Sorted d) (fun _ _ hx hm => hx.move hm) hstart h
  exact hend.owned

/-! ### Two intents a desk is given -/

/-- Proposes the intents it holds, one a step. -/
def proposer : Strategy (List Intent) := ⟨fun is _ _ => (is.head?, is.tail)⟩

def buyBtc : Intent := { symbol := "BTC", side := .buy, baseAmount := 1 }

def sellBtc : Intent := { symbol := "BTC", side := .sell, baseAmount := 1 }

def buyEth : Intent := { symbol := "ETH", side := .buy, baseAmount := 1 }

theorem lot_pos : (0 : ℚ) < 1 := by decide

/-- Two orders land on a book, and each is filled before it is reconciled. -/
def twoFills (book : String) : Desk.Script := [
  ([], .accepted "x" true book), ([.execute "x" ⟨1, 1, 100, 0, lot_pos⟩ true], .trades),
  ([], .accepted "y" true book), ([.execute "y" ⟨2, 1, 110, 0, lot_pos⟩ true], .trades)]

def given (book : String) (intents : List Intent) : Blotter (List Intent) (World × Desk.Script) where
  state := {
    policy := { config := {
      allowedSymbols := ["BTC", "ETH"], maxNotionalPerTx := 200, maxTxPerWindow := 5,
      windowSteps := 10, maxDrawdownPct := 1 / 2 } }
    agent := intents
    staleness := aStart.staleness.observeData 0
    rail := (({}, twoFills book), []) }

def holding : SimWallet := { quote := 10000, positions := Dict.empty.set "BTC" 1 }

/-- The steps of a supervisor on the desk, one a tick. -/
def stepped (ticks : List ℤ) : List (Move (List Intent)) :=
  ticks.mapIdx fun n ts => .step (aTick ts) holding (n + 1) (n + 1)

/-- The intents of the steps that were reported FILLED, each with the symbol and the side
of its fill. -/
def sides (x : Blotter (List Intent) (World × Desk.Script)) :
    List (Option Intent × Option (String × Side)) :=
  x.filled.map fun rep => (rep.intent, rep.fill.map fun f => (f.symbol, f.side))

/-- A fill of the intent has its symbol and its side. -/
theorem sides_of_owned {v : Venue} {d : Desk v (World × Desk.Script)}
    {x : Blotter (List Intent) (World × Desk.Script)} (h : ∀ rep ∈ x.filled, Owned d x rep) :
    ∀ p ∈ sides x, p.1.map (fun i => (i.symbol, i.side)) = p.2 := by
  intro p hp
  obtain ⟨rep, hrep, rfl⟩ := List.mem_map.mp hp
  obtain ⟨i, f, hi, hf, hsymbol, hside, _⟩ := h rep hrep
  simp only [hi, hf, Option.map_some, hsymbol, hside]

/-- Two ticks, two fills, each of its own intent. -/
theorem fills_owned_two :
    let x := (stepped [1, 2]).foldl (move (Desk.scripted .bitso) proposer)
      (given "btc_mxn" [buyBtc, sellBtc])
    sides x = [(some buyBtc, some ("BTC", .buy)), (some sellBtc, some ("BTC", .sell))] ∧
    ∀ rep ∈ x.filled, Owned (Desk.scripted .bitso) x rep := by
  intro x
  have halong : Along (move (Desk.scripted .bitso) proposer)
      (Distinct (Desk.scripted .bitso) proposer) (given "btc_mxn" [buyBtc, sellBtc])
      (stepped [1, 2]) := by
    decide +kernel
  exact ⟨by decide +kernel, fills_owned rfl rfl halong⟩

/-- The second of two ticks with one time reports the fill of the first for the SELL that
was approved in it; an intent for ETH is reported filled in BTC. -/
theorem replayed_fill :
    let x := (stepped [1, 1]).foldl (move (Desk.scripted .bitso) proposer)
      (given "btc_mxn" [buyBtc, sellBtc])
    let y := (stepped [1]).foldl (move (Desk.scripted .bitso) proposer) (given "eth_mxn" [buyEth])
    sides x = [(some buyBtc, some ("BTC", .buy)), (some sellBtc, some ("BTC", .buy))] ∧
    sides y = [(some buyEth, some ("BTC", .buy))] ∧
    (¬ ∀ rep ∈ x.filled, Owned (Desk.scripted .bitso) x rep) ∧
    ¬ ∀ rep ∈ y.filled, Owned (Desk.scripted .bitso) y rep := by
  intro x y
  have hx : sides x = [(some buyBtc, some ("BTC", .buy)), (some sellBtc, some ("BTC", .buy))] := by
    decide +kernel
  have hy : sides y = [(some buyEth, some ("BTC", .buy))] := by decide +kernel
  refine ⟨hx, hy, fun h => ?_, fun h => ?_⟩
  · have hside := sides_of_owned h
    rw [hx] at hside
    exact absurd hside (by decide)
  · have hsymbol := sides_of_owned h
    rw [hy] at hsymbol
    exact absurd hsymbol (by decide)

end LiveSupervisor

end TreasuryForge

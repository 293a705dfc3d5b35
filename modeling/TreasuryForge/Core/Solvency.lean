/-
# `Core.Solvency` — whatever executes, the wallet stays solvent

`SimWallet.apply_fill` as it changes the wallet in place, and an executor about which nothing
is known but that this is the only way it changes the wallet (`Broker`): a program whose calls
are `apply_fill`, which sees whether each was refused, may catch the refusal and go on, and
ends with a fill or by raising.

The assignments come after both checks, so a refused fill changes nothing (`fillCall_eq`).
`Settling` are the settlements a run asks for, and `solvent_and_atomic` is about every point
of every one of them.
-/
import TreasuryForge.Base.Prog
import TreasuryForge.Core.Bounds
import TreasuryForge.Core.Journal

namespace TreasuryForge

open Resume (Prog)

namespace SimWallet

/-- `apply_fill`, assignment by assignment. -/
def applyFillInPlace (f : Fill) : ExceptT InsufficientFunds (StateM SimWallet) Unit := do
  let w ← get
  let newQuote := w.quote + f.quoteDelta
  let newBase := w.baseBalance f.symbol + f.baseDelta
  if newQuote < -eps then
    throw ⟨s!"quote would go negative: {Decimal.fixed 6 newQuote} " ++
      s!"(have {Decimal.fixed 6 w.quote})"⟩
  if newBase < -eps then
    throw ⟨s!"{f.symbol} would go negative: {Decimal.fixed 6 newBase}"⟩
  modify fun w => { w with quote := max newQuote 0 }
  modify fun w => { w with positions := w.positions.set f.symbol (max newBase 0) }

/-- A call of `apply_fill`: whether it raises, and the wallet then. -/
def fillCall (w : SimWallet) (f : Fill) : Except InsufficientFunds Unit × SimWallet :=
  (applyFillInPlace f).run.run w

/-- In place, a fill is applied as a whole or not at all. -/
theorem fillCall_eq (w : SimWallet) (f : Fill) : w.fillCall f =
    match w.applyFill f with
    | .ok w' => (.ok (), w')
    | .error e => (.error e, w) := by
  simp only [fillCall, applyFillInPlace, applyFill, ExceptT.run_bind, StateT.run_bind]
  simp only [ExceptT.run, StateT.run, get, getThe, MonadStateOf.get, liftM, monadLift,
    MonadLift.monadLift, ExceptT.lift, ExceptT.mk, StateT.get, Functor.map, StateT.map, bind, pure]
  split
  · rfl
  · split
    · rfl
    · rfl

theorem Solvent.fillCall {w : SimWallet} (h : w.Solvent) (f : Fill) : (w.fillCall f).2.Solvent := by
  rw [fillCall_eq]
  cases hw : w.applyFill f with
  | ok w' => exact h.applyFill hw
  | error e => exact h

theorem fillCall_refused {w : SimWallet} {f : Fill} {e : InsufficientFunds}
    (h : (w.fillCall f).1 = .error e) : (w.fillCall f).2 = w := by
  rw [fillCall_eq] at h ⊢
  cases hw : w.applyFill f with
  | ok w' =>
      rw [hw] at h
      cases h
  | error e' => rfl

end SimWallet

/-- What an executor that changes the wallet only through `apply_fill` does with an intent; it
ends with its own new state, and a fill or the exception it lets through. -/
abbrev Filling (X : Type) : Type :=
  Prog Fill (fun _ => Except InsufficientFunds Unit) (InsufficientFunds × X) (Fill × X)

structure Broker (X : Type) where
  execute : X → Intent → MarketTick → SimWallet → Filling X

namespace Broker

variable {X : Type}

def toExecutor (b : Broker X) : Executor X where
  execute x intent tick wallet :=
    match (b.execute x intent tick wallet).eval SimWallet.fillCall wallet with
    | (.ok (fill, x'), wallet') => (.ok fill, wallet', x')
    | (.error (e, x'), wallet') => (.error e, wallet', x')

variable {b : Broker X} {x x' : X} {i : Intent} {t : MarketTick} {w w' : SimWallet}

theorem toExecutor_wallet : (b.toExecutor.execute x i t w).2.1 =
    ((b.execute x i t w).eval SimWallet.fillCall w).2 := by
  simp only [toExecutor]
  rcases (b.execute x i t w).eval SimWallet.fillCall w with ⟨⟨e, x'⟩ | ⟨f, x'⟩, w'⟩ <;> rfl

theorem solvent_execute {result : Except InsufficientFunds Fill} (hw : w.Solvent)
    (h : b.toExecutor.execute x i t w = (result, w', x')) : w'.Solvent := by
  have hkeeps : ((b.execute x i t w).eval SimWallet.fillCall w).2.Solvent :=
    Prog.eval_keeps (I := SimWallet.Solvent) (fun _ f h => h.fillCall f) hw
  rw [← toExecutor_wallet, h] at hkeeps
  exact hkeeps

/-- A refusal the executor lets through ends the execution where it is. -/
theorem execute_of_raised {e : InsufficientFunds} {f : Fill}
    {k : Except InsufficientFunds Unit → Filling X}
    (hp : Prog.Through SimWallet.fillCall (b.execute x i t w) w (.call f k) w')
    (hf : (w'.fillCall f).1 = .error e) (hk : k (.error e) = .raise (e, x')) :
    b.toExecutor.execute x i t w = (.error e, w', x') := by
  have heval : (b.execute x i t w).eval SimWallet.fillCall w = (.error (e, x'), w') := by
    calc (b.execute x i t w).eval SimWallet.fillCall w
        = (k (w'.fillCall f).1).eval SimWallet.fillCall (w'.fillCall f).2 := hp.eval.symm
      _ = (Prog.raise (e, x') : Filling X).eval SimWallet.fillCall w' := by
          rw [hf, hk, SimWallet.fillCall_refused hf]
      _ = (.error (e, x'), w') := rfl
  simp only [toExecutor, heval]

end Broker

namespace Runner

variable {A X : Type} {r : Runner A X} {b : Broker X} {s : RunState A X} {t : MarketTick}

variable (r) in
/-- The settlements a run on these ticks asks for: the state it is in, the intent, the tick. -/
inductive Settling (s : RunState A X) (ticks : List MarketTick) :
    RunState A X → Intent → MarketTick → Prop
  | pending {past rest : List MarketTick} {t : MarketTick} {i : Intent} {d : ℤ}
      (hticks : ticks = past ++ t :: rest)
      (hpend : (opened (r.loop s past) t).pending = some (i, d)) :
      Settling s ticks (opened (r.loop s past) t) i t
  | atOnce {past rest : List MarketTick} {t : MarketTick} {i : Intent} {a : A} {s₂ : RunState A X}
      {policy : PolicyEngine} {log : List AuditEntry}
      (hticks : ticks = past ++ t :: rest) (hasking : r.asking (r.loop s past) t = s₂)
      (hdecide : r.agent.decide s₂.agent t s₂.wallet = (some i, a))
      (hpolicy : (s₂.policy.evaluate i t s₂.wallet none).2 = policy)
      (hallowed : (s₂.policy.evaluate i t s₂.wallet none).1.allowed = true)
      (hdelay : r.executionDelay ≤ 0) :
      Settling s ticks { s₂ with agent := a, policy := policy, auditLog := log } i t

theorem solvent_kept (hx : r.executor = b.toExecutor) : Kept r (fun w _ _ _ => w.Solvent) t where
  fillPending h he := Broker.solvent_execute h (hx ▸ he)
  dropPending h := h
  abort h he := Broker.solvent_execute h (hx ▸ he)
  rule h := h
  fillNow h _ _ he := Broker.solvent_execute h (hx ▸ he)
  keep h _ _ := h

theorem opened_wallet (s : RunState A X) (t : MarketTick) : (opened s t).wallet = s.wallet := by
  unfold opened
  split <;> rfl

theorem Settling.solvent (hx : r.executor = b.toExecutor) (hw : s.wallet.Solvent)
    {ticks : List MarketTick} {s' : RunState A X} {i : Intent} (h : r.Settling s ticks s' i t) :
    s'.wallet.Solvent := by
  have hloop : ∀ past, (r.loop s past).wallet.Solvent := fun past =>
    Kept.loop (fun _ _ => solvent_kept hx) (show At _ s from hw)
  cases h with
  | pending hticks hpend =>
      rw [opened_wallet]
      exact hloop _
  | @atOnce past _ _ _ _ s₂ _ _ hticks hasking _ _ _ _ =>
      have hopened : (opened (r.loop s past) t).wallet.Solvent := by
        rw [opened_wallet]
        exact hloop past
      have hasked := ((solvent_kept (t := t) hx).moved.settlePending
        (show At _ (opened (r.loop s past) t) from hopened)).1
      rw [← hasking]
      exact hasked

/-- With an executor that changes the wallet only by `apply_fill`, a run that starts solvent
is solvent after every tick and at every point of every settlement; a refused fill leaves the
wallet as it was; and a refusal that is let through leaves the policy engine and the recorded
fills as they were as well. -/
theorem solvent_and_atomic (hx : r.executor = b.toExecutor) (hw : s.wallet.Solvent)
    (ticks : List MarketTick) :
    (r.loop s ticks).wallet.Solvent ∧
    ∀ s' i t, r.Settling s ticks s' i t →
      ∀ p w, Prog.Through SimWallet.fillCall (b.execute s'.executor i t s'.wallet) s'.wallet p w →
        w.Solvent ∧
        ∀ f k e, p = .call f k → (w.fillCall f).1 = .error e →
          (w.fillCall f).2 = w ∧
          ∀ x, k (.error e) = .raise (e, x) →
            (r.settle s' i t).wallet = w ∧ (r.settle s' i t).policy = s'.policy ∧
              (r.settle s' i t).report.fills = s'.report.fills := by
  refine ⟨Kept.loop (fun _ _ => solvent_kept hx) (show At _ s from hw), ?_⟩
  intro s' i t hs p w hp
  refine ⟨hp.keeps (fun w f h => h.fillCall f) (hs.solvent hx hw), ?_⟩
  rintro f k e rfl he
  refine ⟨SimWallet.fillCall_refused he, ?_⟩
  intro x hk
  have hexec : r.executor.execute s'.executor i t s'.wallet = (.error e, w, x) := by
    rw [hx]
    exact Broker.execute_of_raised hp he hk
  rcases settle_cases (r := r) s' i t with ⟨f', w', x', rep, ps, hok, -, -⟩ |
    ⟨e', w', x', rep, ps, herr, hs', hfills⟩
  · rw [hexec] at hok
    cases hok
  · rw [hexec] at herr
    cases herr
    rw [hs']
    exact ⟨rfl, rfl, hfills⟩

/-- A purchase, with a rebate in the base. -/
def bid (i : Intent) (t : MarketTick) (n : ℚ) : Fill :=
  { symbol := i.symbol, side := .buy, baseAmount := n, price := t.price, fee := -1 / 10,
    ts := t.ts, feeCurrency := "base" }

/-- Buys one unit, then a thousand. -/
def rash : Broker Unit where
  execute _ i t _ :=
    .call (bid i t 1) fun
      | .error e => .raise (e, ())
      | .ok () => .call (bid i t 1000) fun
        | .error e => .raise (e, ())
        | .ok () => .ret (bid i t 1000, ())

def rashRunner : Runner Unit Unit := { aRunner buyOne 1 with executor := rash.toExecutor }

/-- The second tick of the run, when it settles what the first one approved. -/
def settlingSecond : RunState Unit Unit :=
  opened (rashRunner.loop aState (twoTicks.take 1)) ⟨"BTC", 101, 1⟩

/-- The wallet with the first unit in it. -/
def firstBought : SimWallet :=
  (settlingSecond.wallet.fillCall (bid buyOne ⟨"BTC", 101, 1⟩ 1)).2

/-- The first unit is bought, the thousand are refused, and nothing is recorded. -/
theorem solvent_and_atomic_rash :
    (rashRunner.loop aState twoTicks).wallet.Solvent ∧
    ∃ w, w.quote = 899 ∧
      (rashRunner.settle settlingSecond buyOne ⟨"BTC", 101, 1⟩).wallet = w ∧
      (rashRunner.settle settlingSecond buyOne ⟨"BTC", 101, 1⟩).policy = settlingSecond.policy ∧
      (rashRunner.settle settlingSecond buyOne ⟨"BTC", 101, 1⟩).report.fills =
        settlingSecond.report.fills := by
  obtain ⟨hsolvent, hatomic⟩ :=
    solvent_and_atomic (b := rash) (r := rashRunner) (s := aState) rfl aState_solvent twoTicks
  have hticks : twoTicks = twoTicks.take 1 ++ [⟨"BTC", 101, 1⟩] := by decide +kernel
  have hpend : settlingSecond.pending = some (buyOne, 0) := by decide +kernel
  have hpaid : (settlingSecond.wallet.fillCall (bid buyOne ⟨"BTC", 101, 1⟩ 1)).1 = .ok () := by decide +kernel
  have hp := Prog.Through.call (h := SimWallet.fillCall) (s := settlingSecond.wallet)
    (Prog.Through.start (p := rash.execute () buyOne ⟨"BTC", 101, 1⟩ settlingSecond.wallet))
  rw [hpaid] at hp
  have hpoint := hatomic _ _ _ (.pending hticks hpend) _ _ hp
  have hbroke : (firstBought.fillCall (bid buyOne ⟨"BTC", 101, 1⟩ 1000)).1.isOk = false := by
    decide +kernel
  cases he : (firstBought.fillCall (bid buyOne ⟨"BTC", 101, 1⟩ 1000)).1 with
  | ok u =>
      rw [he] at hbroke
      cases hbroke
  | error e =>
      obtain ⟨-, hlet⟩ := hpoint.2 _ _ _ rfl he
      exact ⟨hsolvent, firstBought, by decide +kernel, hlet () rfl⟩

end Runner

end TreasuryForge

/-
# `Core.Runner` — the simulated loop

`treasuryforge/runner.py`, for any strategy and any executor.  One tick settles
the pending intent at this tick's price, asks the strategy, lets the policy rule,
and settles at once (`executionDelay ≤ 0`) or keeps the intent for the next tick.

The state carries, beside what `Runner.run` keeps in its local variables and in
`self`, the writes the journal has received so far, the audit entries, and
`settled`: a history of the settlements that filled, which no function reads and
the statements speak about.  `settle_cases` and `dispose_cases` say what the two
halves of a tick can do; `Moved` is the proof rule made of them, for a relation that
may change with the tick, and `Kept` is it for one that does not.  `Kept.loop` and
`loop_inOrder` are the inductions over the ticks of a run.
-/
import TreasuryForge.Core.Executor
import TreasuryForge.Core.Policy

namespace TreasuryForge

/-- `decide`, with the strategy's own state. -/
structure Strategy (A : Type) where
  decide : A → MarketTick → SimWallet → Option Intent × A

inductive LedgerKind where
  | fill
  | denied
  | hold
  deriving DecidableEq, Repr

structure LedgerEvent where
  ts : ℤ
  price : ℚ
  kind : LedgerKind
  equity : ℚ
  deriving Repr

structure RunReport where
  initialEquity : ℚ := 0
  finalEquity : ℚ := 0
  fills : List Fill := []
  ledger : List LedgerEvent := []
  denials : Dict String ℕ := Dict.empty
  breakerTripped : Bool := false

/-- What `Runner._state` checkpoints. -/
structure Checkpoint where
  lastTs : ℤ
  policy : PolicyEngine.Snapshot
  wallet : Dict String ℚ

/-- One write to the journal's directory. -/
inductive Write where
  | event (ts : ℤ) (side : String) (base price fee : ℚ)
  | checkpoint (c : Checkpoint)

structure AuditEntry where
  ts : ℤ
  price : ℚ
  symbol : String
  side : String
  baseAmount : ℚ
  allowed : Bool
  reason : String
  deriving Repr

/-- A settlement that filled: the intent, the tick it filled at, the wallet
before and after. -/
structure Settlement where
  intent : Intent
  tick : MarketTick
  before : SimWallet
  fill : Fill
  after : SimWallet

/-- `SimWallet.snapshot`: the quote under its own key, then the positions. -/
def SimWallet.snapshot (w : SimWallet) : Dict String ℚ :=
  w.positions.items.foldl (fun d p => d.set p.1 p.2) (Dict.empty.set "quote" w.quote)

structure Runner (A X : Type) where
  symbol : String
  agent : Strategy A
  executor : Executor X
  journaled : Bool := false
  audited : Bool := false
  executionDelay : ℤ := 1

structure RunState (A X : Type) where
  agent : A
  executor : X
  policy : PolicyEngine
  wallet : SimWallet
  report : RunReport := {}
  first : Bool := true
  pending : Option (Intent × ℤ) := none
  lastPrices : Dict String ℚ := Dict.empty
  writes : List Write := []
  auditLog : List AuditEntry := []
  settled : List Settlement := []

namespace Runner

variable {A X : Type} (r : Runner A X)

/-- The rule name: the text before the first space. -/
def ruleName (reason : String) : String := (reason.splitOn " ").headD ""

def tallyDenial (s : RunState A X) (reason : String) : RunState A X :=
  let key := ruleName reason
  { s with report := { s.report with
      denials := s.report.denials.set key (s.report.denials.getD key 0 + 1) } }

def log (s : RunState A X) (ts : ℤ) (price : ℚ) (kind : LedgerKind) : RunState A X :=
  let prices : Dict String ℚ := Dict.empty.set r.symbol price
  { s with
    lastPrices := prices
    report := { s.report with
      ledger := s.report.ledger ++ [⟨ts, price, kind, s.wallet.equity prices⟩] } }

def checkpoint (s : RunState A X) (ts : ℤ) : Checkpoint :=
  ⟨ts, s.policy.snapshot, s.wallet.snapshot⟩

/-- Write to the journal, if there is one. -/
def journal (s : RunState A X) (ws : List Write) : RunState A X :=
  if r.journaled then { s with writes := s.writes ++ ws } else s

def settle (s : RunState A X) (intent : Intent) (tick : MarketTick) : RunState A X :=
  match r.executor.execute s.executor intent tick s.wallet with
  | (.error _, wallet, x) =>
      -- the price moved between decision and fill: abort, never overdraw
      r.log (tallyDenial { s with executor := x, wallet := wallet } "DENY:fill_aborted price_moved")
        tick.ts tick.price .denied
  | (.ok fill, wallet, x) =>
      let s₁ := { s with
        executor := x
        wallet := wallet
        policy := s.policy.registerFill tick.ts (fill.baseAmount * fill.price)
        report := { s.report with fills := s.report.fills ++ [fill] }
        settled := s.settled ++ [⟨intent, tick, s.wallet, fill, wallet⟩] }
      let s₂ := r.log s₁ tick.ts tick.price .fill
      r.journal s₂ [
        .event fill.ts fill.side.value fill.baseAmount fill.price fill.fee,
        .checkpoint (checkpoint s₂ fill.ts)]

/-- The policy's turn on a proposed intent, and what follows its verdict. -/
def dispose (s : RunState A X) (intent : Intent) (tick : MarketTick) : RunState A X :=
  let (verdict, policy) := s.policy.evaluate intent tick s.wallet none
  let entry : AuditEntry := ⟨tick.ts, tick.price, intent.symbol, intent.side.value,
    intent.baseAmount, verdict.allowed, verdict.reason⟩
  let s₁ := { s with
    policy := policy
    auditLog := if r.audited then s.auditLog ++ [entry] else s.auditLog }
  if verdict.allowed = false then
    let s₂ := r.log (tallyDenial s₁ verdict.reason) tick.ts tick.price .denied
    if policy.tripped then r.journal s₂ [.checkpoint (checkpoint s₂ tick.ts)] else s₂
  else if r.executionDelay ≤ 0 then r.settle s₁ intent tick
  else { s₁ with pending := some (intent, tick.ts) }

/-- Settle what the last tick left pending, at this tick's price. -/
def settlePending (s : RunState A X) (tick : MarketTick) : RunState A X :=
  match s.pending with
  | some (intent, _) => { r.settle s intent tick with pending := none }
  | none => s

/-- The first tick fixes the initial equity. -/
def opened (s : RunState A X) (tick : MarketTick) : RunState A X :=
  if s.first then
    { s with first := false,
             report := { s.report with initialEquity := s.wallet.equity tick.prices } }
  else s

/-- The loop body. -/
def onTick (s : RunState A X) (tick : MarketTick) : RunState A X :=
  let s₂ := r.settlePending (opened s tick) tick
  match r.agent.decide s₂.agent tick s₂.wallet with
  | (none, a) => r.log { s₂ with agent := a } tick.ts tick.price .hold
  | (some intent, a) => r.dispose { s₂ with agent := a } intent tick

/-- The state after the loop, before the report is closed. -/
def loop (s : RunState A X) (ticks : List MarketTick) : RunState A X := ticks.foldl r.onTick s

def run (s : RunState A X) (ticks : List MarketTick) : RunReport :=
  let s' := r.loop s ticks
  { s'.report with
    finalEquity := s'.wallet.equity s'.lastPrices
    breakerTripped := s'.policy.tripped }

/-- `MarketSimulator.ticks` on a scripted price path. -/
def marketTicks (symbol : String) (prices : List ℚ) : List MarketTick :=
  prices.mapIdx fun i p => ⟨symbol, p, i⟩

/-! ## What a step can do -/

variable {r}

/-- What a settlement that fills writes to the journal. -/
def fillWrites (fill : Fill) (policy : PolicyEngine) (wallet : SimWallet) : List Write :=
  [.event fill.ts fill.side.value fill.baseAmount fill.price fill.fee,
    .checkpoint ⟨fill.ts, policy.snapshot, wallet.snapshot⟩]

/-- A settlement fills, or leaves windows, pending slot, fills, journal and history alone,
and the wallet as the executor left it. -/
theorem settle_cases (s : RunState A X) (intent : Intent) (tick : MarketTick) :
    (∃ fill wallet x report prices,
      r.executor.execute s.executor intent tick s.wallet = (.ok fill, wallet, x) ∧
      (r.settle s intent tick =
        let policy := s.policy.registerFill tick.ts (fill.baseAmount * fill.price)
        { s with
          executor := x, wallet := wallet, policy := policy, report := report,
          lastPrices := prices,
          writes := s.writes ++ if r.journaled then fillWrites fill policy wallet else [],
          settled := s.settled ++ [⟨intent, tick, s.wallet, fill, wallet⟩] }) ∧
      report.fills = s.report.fills ++ [fill]) ∨
    (∃ e wallet x report prices,
      r.executor.execute s.executor intent tick s.wallet = (.error e, wallet, x) ∧
      r.settle s intent tick =
        { s with executor := x, wallet := wallet, report := report, lastPrices := prices } ∧
      report.fills = s.report.fills) := by
  unfold settle
  rcases r.executor.execute s.executor intent tick s.wallet with ⟨e | fill, wallet, x⟩
  · exact Or.inr ⟨e, wallet, x, _, _, rfl, rfl, rfl⟩
  · refine Or.inl ⟨fill, wallet, x, ?_⟩
    cases hj : r.journaled with
    | true =>
        simp only [journal, hj, if_true]
        exact ⟨_, _, trivial, rfl, rfl⟩
    | false =>
        simp only [journal, hj, Bool.false_eq_true, if_false, List.append_nil]
        exact ⟨_, _, trivial, rfl, rfl⟩

/-- A proposed intent is denied, or approved and settled at once, or approved and
kept pending. -/
theorem dispose_cases (s : RunState A X) (intent : Intent) (tick : MarketTick) :
    let ruling := s.policy.evaluate intent tick s.wallet none
    (ruling.1.allowed = false ∧ ∃ a report prices,
      r.dispose s intent tick = { s with
        policy := ruling.2, auditLog := a, report := report, lastPrices := prices,
        writes := s.writes ++ if r.journaled = true ∧ ruling.2.tripped = true then
          [.checkpoint ⟨tick.ts, ruling.2.snapshot, s.wallet.snapshot⟩] else [] } ∧
      report.fills = s.report.fills) ∨
    (ruling.1.allowed = true ∧ r.executionDelay ≤ 0 ∧
      ∃ a, r.dispose s intent tick =
        r.settle { s with policy := ruling.2, auditLog := a } intent tick) ∨
    (ruling.1.allowed = true ∧ 0 < r.executionDelay ∧
      ∃ a, r.dispose s intent tick =
        { s with policy := ruling.2, auditLog := a, pending := some (intent, tick.ts) }) := by
  intro ruling
  simp only [dispose]
  cases hv : ruling.1.allowed with
  | false =>
      refine Or.inl ⟨rfl, ?_⟩
      simp only [ruling, if_true, journal]
      cases ht : (s.policy.evaluate intent tick s.wallet none).2.tripped with
      | false =>
          simp only [Bool.false_eq_true, and_false, if_false, List.append_nil]
          exact ⟨_, _, _, rfl, rfl⟩
      | true =>
          cases hj : r.journaled with
          | false =>
              simp only [Bool.false_eq_true, false_and, if_false, if_true, List.append_nil]
              exact ⟨_, _, _, rfl, rfl⟩
          | true =>
              simp only [and_self, if_true]
              exact ⟨_, _, _, rfl, rfl⟩
  | true =>
      right
      simp only [ruling, Bool.true_eq_false, if_false]
      rcases le_or_gt r.executionDelay 0 with hd | hd
      · left
        rw [if_pos hd]
        exact ⟨trivial, hd, _, rfl⟩
      · right
        rw [if_neg (not_le.mpr hd)]
        exact ⟨trivial, hd, _, rfl⟩

/-! ## The proof rule for a tick -/

/-- A relation between the wallet, the policy engine, the pending intent and the
settlements so far. -/
abbrev Relates := SimWallet → PolicyEngine → Option (Intent × ℤ) → List Settlement → Prop

/-- Such a relation, in a state of the loop. -/
def At (I : Relates) (s : RunState A X) : Prop := I s.wallet s.policy s.pending s.settled

variable (r) in
/-- The intent that is proposed at this tick, if the policy approves it. -/
def approved (s : RunState A X) (tick : MarketTick) : Option Intent :=
  let s₂ := r.settlePending (opened s tick) tick
  (r.agent.decide s₂.agent tick s₂.wallet).1.filter fun i =>
    (s₂.policy.evaluate i tick s₂.wallet none).1.allowed

/-- What relations have to show to hold before a tick (`I`), after what was pending is
settled (`M`) and after the tick (`J`): one field for each thing the tick can do.  `P` is
what is known of an intent that is approved at this tick. -/
structure Moved (r : Runner A X) (I M J : Relates) (t : MarketTick) (P : Intent → Prop) : Prop where
  /-- the pending intent fills -/
  fillPending : ∀ {w p i ts st x f w' x'}, I w p (some (i, ts)) st →
    r.executor.execute x i t w = (.ok f, w', x') →
    M w' (p.registerFill t.ts (f.baseAmount * f.price)) none (st ++ [⟨i, t, w, f, w'⟩])
  /-- the pending intent is aborted -/
  dropPending : ∀ {w p i ts st x e w' x'}, I w p (some (i, ts)) st →
    r.executor.execute x i t w = (.error e, w', x') → M w' p none st
  /-- nothing is pending -/
  settled : ∀ {w p st}, I w p none st → M w p none st
  /-- the strategy proposes nothing -/
  hold : ∀ {w p st}, M w p none st → J w p none st
  /-- the policy rules on an intent -/
  rule : ∀ {w p i st}, M w p none st → J w (p.evaluate i t w none).2 none st
  /-- an approved intent fills at once -/
  fillNow : ∀ {w p i st x f w' x'}, M w p none st → P i → PolicyEngine.Approved p i t w →
    r.executionDelay ≤ 0 → r.executor.execute x i t w = (.ok f, w', x') →
    J w' ((p.evaluate i t w none).2.registerFill t.ts (f.baseAmount * f.price)) none
      (st ++ [⟨i, t, w, f, w'⟩])
  /-- an approved intent is aborted at once -/
  dropNow : ∀ {w p i st x e w' x'}, M w p none st → r.executionDelay ≤ 0 →
    r.executor.execute x i t w = (.error e, w', x') → J w' (p.evaluate i t w none).2 none st
  /-- an approved intent is kept for the next tick -/
  keep : ∀ {w p i st}, M w p none st → P i → PolicyEngine.Approved p i t w →
    0 < r.executionDelay → J w (p.evaluate i t w none).2 (some (i, t.ts)) st

variable {I M J : Relates} {t : MarketTick} {P : Intent → Prop}

theorem Moved.settlePending (K : Moved r I M J t P) {s : RunState A X} (h : At I s) :
    At M (r.settlePending s t) ∧ (r.settlePending s t).pending = none := by
  cases hp : s.pending with
  | none =>
      have he : r.settlePending s t = s := by rw [Runner.settlePending, hp]
      rw [At, hp] at h
      rw [he, At, hp]
      exact ⟨K.settled h, rfl⟩
  | some d =>
      obtain ⟨i, ts⟩ := d
      have he : r.settlePending s t = { r.settle s i t with pending := none } := by
        rw [Runner.settlePending, hp]
      rw [At, hp] at h
      rw [he]
      refine ⟨?_, rfl⟩
      rcases settle_cases s i t with ⟨f, w', x, rep, ps, hx, hs, -⟩ |
        ⟨e, w', x, rep, ps, hx, hs, -⟩
      · rw [hs]
        exact K.fillPending h hx
      · rw [hs]
        exact K.dropPending h hx

theorem Moved.dispose (K : Moved r I M J t P) {s : RunState A X} (h : At M s)
    (hn : s.pending = none) {i : Intent}
    (hP : (s.policy.evaluate i t s.wallet none).1.allowed = true → P i) :
    At J (r.dispose s i t) := by
  rw [At, hn] at h
  rcases dispose_cases s i t with ⟨-, a, rep, ps, he, -⟩ | ⟨ha, hd, a, he⟩ | ⟨ha, hd, a, he⟩
  · rw [he]
    show J s.wallet _ s.pending s.settled
    rw [hn]
    exact K.rule h
  · have happ := PolicyEngine.evaluate_allowed ha
    rw [he]
    rcases settle_cases { s with policy := (s.policy.evaluate i t s.wallet none).2, auditLog := a } i t
      with ⟨f, w', x, rep, ps, hx, hs, -⟩ | ⟨e, w', x, rep, ps, hx, hs, -⟩
    · rw [hs]
      show J w' _ s.pending _
      rw [hn]
      exact K.fillNow h (hP ha) happ hd hx
    · rw [hs]
      show J w' _ s.pending s.settled
      rw [hn]
      exact K.dropNow h hd hx
  · have happ := PolicyEngine.evaluate_allowed ha
    rw [he]
    exact K.keep h (hP ha) happ hd

theorem Moved.onTick (K : Moved r I M J t P) {s : RunState A X} (h : At I s)
    (hP : ∀ i ∈ r.approved s t, P i) : At J (r.onTick s t) := by
  have h₁ : At I (opened s t) := by
    unfold opened
    split <;> exact h
  obtain ⟨h₂, hn⟩ := K.settlePending h₁
  simp only [approved] at hP
  simp only [Runner.onTick]
  generalize r.settlePending (opened s t) t = s₂ at h₂ hn hP ⊢
  rcases hd : r.agent.decide s₂.agent t s₂.wallet with ⟨_ | i, a⟩
  · rw [At, hn] at h₂
    show J s₂.wallet s₂.policy s₂.pending s₂.settled
    rw [hn]
    exact K.hold h₂
  · refine K.dispose (s := { s₂ with agent := a }) h₂ hn fun ha => hP i ?_
    rw [hd]
    exact Option.filter_eq_some_iff.mpr ⟨rfl, ha⟩

/-! ## Relations that stay -/

/-- What a relation has to show to hold throughout a run: one field for each thing a
tick can do to it. -/
structure Kept (r : Runner A X) (I : Relates) (t : MarketTick) : Prop where
  /-- the pending intent fills -/
  fillPending : ∀ {w p i ts st x f w' x'}, I w p (some (i, ts)) st →
    r.executor.execute x i t w = (.ok f, w', x') →
    I w' (p.registerFill t.ts (f.baseAmount * f.price)) none (st ++ [⟨i, t, w, f, w'⟩])
  /-- the pending intent is given up -/
  dropPending : ∀ {w p i ts st}, I w p (some (i, ts)) st → I w p none st
  /-- the executor raises -/
  abort : ∀ {w p pend i st x e w' x'}, I w p pend st →
    r.executor.execute x i t w = (.error e, w', x') → I w' p pend st
  /-- the policy rules on an intent -/
  rule : ∀ {w p pend i st}, I w p pend st → I w (p.evaluate i t w none).2 pend st
  /-- an approved intent fills at once -/
  fillNow : ∀ {w p pend i st x f w' x'}, I w p pend st → PolicyEngine.Approved p i t w →
    r.executionDelay ≤ 0 → r.executor.execute x i t w = (.ok f, w', x') →
    I w' ((p.evaluate i t w none).2.registerFill t.ts (f.baseAmount * f.price)) pend
      (st ++ [⟨i, t, w, f, w'⟩])
  /-- an approved intent is kept for the next tick -/
  keep : ∀ {w p pend i st}, I w p pend st → PolicyEngine.Approved p i t w →
    0 < r.executionDelay → I w (p.evaluate i t w none).2 (some (i, t.ts)) st

theorem Kept.moved (K : Kept r I t) : Moved r I I I t (fun _ => True) where
  fillPending := K.fillPending
  dropPending h hx := K.dropPending (K.abort h hx)
  settled h := h
  hold h := h
  rule := K.rule
  fillNow h _ := K.fillNow h
  dropNow h _ hx := K.abort (K.rule h) hx
  keep h _ := K.keep h

/-- Induction over a run: what every tick keeps, the loop keeps. -/
theorem Kept.loop {ticks : List MarketTick} (K : ∀ t ∈ ticks, Kept r I t) :
    ∀ {s : RunState A X}, At I s → At I (r.loop s ticks) := by
  induction ticks with
  | nil => exact fun h => h
  | cons t ts ih =>
      intro s h
      exact ih (fun t' ht' => K t' (List.mem_cons_of_mem _ ht'))
        ((K t List.mem_cons_self).moved.onTick h fun _ _ => trivial)

/-! ## Relations that depend on the time -/

/-- The ticks' times do not decrease. -/
def InOrder (ticks : List MarketTick) : Prop := ticks.Pairwise fun t t' => t.ts ≤ t'.ts

theorem marketTicks_inOrder (symbol : String) (prices : List ℚ) :
    InOrder (marketTicks symbol prices) := by
  rw [InOrder, List.pairwise_iff_getElem]
  intro i j hi hj hij
  simp only [marketTicks, List.getElem_mapIdx]
  exact_mod_cast hij.le

/-- Ticks in order start at some time. -/
theorem InOrder.lower {ticks : List MarketTick} (h : InOrder ticks) :
    ∃ lo, ∀ t ∈ ticks, lo ≤ t.ts := by
  cases ticks with
  | nil => exact ⟨0, fun _ ht => absurd ht List.not_mem_nil⟩
  | cons t ts =>
      refine ⟨t.ts, ?_⟩
      intro u hu
      rcases List.mem_cons.mp hu with rfl | hu
      · exact le_rfl
      · exact (List.pairwise_cons.mp h).1 u hu

/-- Induction over a run in order: a relation for each time, each of which the later
ones follow from. -/
theorem loop_inOrder (R : ℤ → Relates)
    (mono : ∀ {a b w p pend st}, a ≤ b → R a w p pend st → R b w p pend st)
    (step : ∀ {s : RunState A X} {t : MarketTick}, At (R t.ts) s → At (R t.ts) (r.onTick s t))
    {ticks : List MarketTick} (ht : InOrder ticks) :
    ∀ {s : RunState A X} {a : ℤ}, (∀ t ∈ ticks, a ≤ t.ts) → At (R a) s →
      ∃ b, At (R b) (r.loop s ticks) := by
  induction ticks with
  | nil => exact fun {_ a} _ h => ⟨a, h⟩
  | cons t ts ih =>
      intro s a ha h
      obtain ⟨hfirst, hrest⟩ := List.pairwise_cons.mp ht
      exact ih hrest hfirst (step (mono (ha t List.mem_cons_self) h))

end Runner

end TreasuryForge

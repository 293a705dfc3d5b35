/-
# `Core.Limits` — the rate limit and the spend budget over a run

Rules 6 and 7 look at the engine's own windows when an intent is approved; the fill
comes at the same tick or at the next one, and is registered there.  Both windows are
queues that cover the log of fills (`Base.Window`), and an approved intent leaves its
own entry room until it settles.

For the count this is all: `rate_limited` holds of every strategy, executor, delay and
configuration.  The budget is another matter.  What is checked is the notional at the
tick of the approval, and what is registered and spent is `baseAmount` at the slipped
price of the tick of the fill; `budget_kept` says that the budget holds in a run in
which no fill costs more than was approved.
-/
import TreasuryForge.Base.Window
import TreasuryForge.Core.Bounds

namespace TreasuryForge

open Window

/-! ## The windows as queues -/

namespace PolicyEngine

variable {e e' : PolicyEngine} {now : ℤ}

/-- The rate window, each entry with weight one. -/
def stamps (e : PolicyEngine) : List (ℤ × ℕ) := e.recentTs.map fun t => (t, 1)

theorem stamps_nonneg : ∀ p ∈ e.stamps, 0 ≤ p.2 := fun _ _ => Nat.zero_le _

@[simp] theorem stamps_registerFill (ts : ℤ) (n : ℚ) :
    (e.registerFill ts n).stamps = e.stamps ++ [(ts, 1)] := by
  simp [stamps, registerFill]

theorem trail_stamps : trail e.config.windowSteps now e.stamps =
    (e.recentAt now).map fun t => (t, 1) := by
  simp only [trail, stamps, recentAt, prune, List.dropWhile_map]
  rfl

theorem load_trail_stamps :
    load (trail e.config.windowSteps now e.stamps) = (e.recentAt now).length := by
  rw [trail_stamps]
  simp [load, Function.comp_def]

/-- A queue that covers a log still does after a ruling. -/
theorem Aged.stamps {B : ℕ} {log : List (ℤ × ℕ)} (h : Aged e now e')
    (ht : Tallied e.config.windowSteps B now e.stamps log) :
    Tallied e.config.windowSteps B now e'.stamps log := by
  rcases h.recent with he | he
  · simpa only [PolicyEngine.stamps, he] using ht
  · have hs : e'.stamps = trail e.config.windowSteps now e.stamps := by
      rw [trail_stamps, PolicyEngine.stamps, he]
    rw [hs]
    exact ht.trail

theorem Aged.tallied {B : ℚ} {log : List (ℤ × ℚ)} (h : Aged e now e')
    (ht : Tallied e.config.spendWindow B now e.spend log) :
    Tallied e.config.spendWindow B now e'.spend log := by
  rcases h.spend with he | he
  · rwa [he]
  · rw [he]
    exact ht.trail

end PolicyEngine

/-- Each fill with the time of its tick and its executed notional. -/
def fills (st : List Settlement) : List (ℤ × ℚ) :=
  st.map fun σ => (σ.tick.ts, σ.fill.baseAmount * σ.fill.price)

theorem fills_snoc (st : List Settlement) (σ : Settlement) :
    fills (st ++ [σ]) = fills st ++ [(σ.tick.ts, σ.fill.baseAmount * σ.fill.price)] := by
  simp [fills]

theorem ones_fills_snoc (st : List Settlement) (σ : Settlement) :
    ones (fills (st ++ [σ])) = ones (fills st) ++ [(σ.tick.ts, 1)] := by
  simp [fills, ones]

namespace Runner

variable {A X : Type} {r : Runner A X} {t : MarketTick} {cfg : PolicyConfig} {now : ℤ}

/-! ## The rate limit -/

/-- At time `now` the rate window covers the fills, and a pending intent has room. -/
def Rated (cfg : PolicyConfig) (now : ℤ) : Relates := fun _ p pend st =>
  p.config = cfg ∧ Tallied cfg.windowSteps cfg.maxTxPerWindow now p.stamps (ones (fills st)) ∧
    ∀ i d, pend = some (i, d) →
      d ≤ now ∧ Fits cfg.windowSteps cfg.maxTxPerWindow d (ones (fills st)) 1

theorem Rated.mono {now' : ℤ} {w : SimWallet} {p : PolicyEngine} {pend : Option (Intent × ℤ)}
    {st : List Settlement} (hn : now ≤ now') (h : Rated cfg now w p pend st) :
    Rated cfg now' w p pend st :=
  ⟨h.1, h.2.1.mono hn, fun i d he => ⟨(h.2.2 i d he).1.trans hn, (h.2.2 i d he).2⟩⟩

theorem Rated.rule {w : SimWallet} {p : PolicyEngine} {i : Intent} {st : List Settlement}
    (h : Rated cfg t.ts w p none st) : Rated cfg t.ts w (p.evaluate i t w none).2 none st := by
  have haged : p.Aged t.ts (p.evaluate i t w none).2 := PolicyEngine.evaluate_aged
  obtain ⟨rfl, htally, -⟩ := h
  exact ⟨haged.config, haged.stamps htally, fun _ _ he => by cases he⟩

/-- An approved intent has room in the rate window. -/
theorem Rated.room {w : SimWallet} {p : PolicyEngine} {i : Intent} {st : List Settlement}
    (h : Rated cfg t.ts w p none st) (ha : PolicyEngine.Approved p i t w) :
    Fits cfg.windowSteps cfg.maxTxPerWindow t.ts (ones (fills st)) 1 := by
  obtain ⟨rfl, htally, -⟩ := h
  refine htally.fits (Nat.zero_le 1) ?_
  rw [PolicyEngine.load_trail_stamps]
  exact ha.rate

theorem Rated.fill {w w' : SimWallet} {p : PolicyEngine} {pend : Option (Intent × ℤ)} {i : Intent}
    {f : Fill} {st : List Settlement} {d : ℤ} (h : Rated cfg t.ts w p pend st)
    (hf : Fits cfg.windowSteps cfg.maxTxPerWindow d (ones (fills st)) 1) (hd : d ≤ t.ts) :
    Rated cfg t.ts w' (p.registerFill t.ts (f.baseAmount * f.price)) none
      (st ++ [⟨i, t, w, f, w'⟩]) := by
  refine ⟨h.1, ?_, fun _ _ he => by cases he⟩
  rw [ones_fills_snoc, PolicyEngine.stamps_registerFill]
  exact h.2.1.push hf hd

theorem rated_moved : Moved r (Rated cfg t.ts) (Rated cfg t.ts) (Rated cfg t.ts) t (fun _ => True) where
  fillPending h _ := h.fill (h.2.2 _ _ rfl).2 (h.2.2 _ _ rfl).1
  dropPending h _ := ⟨h.1, h.2.1, fun _ _ he => by cases he⟩
  settled h := h
  hold h := h
  rule h := h.rule
  fillNow h _ ha _ _ := h.rule.fill (h.room ha) le_rfl
  dropNow h _ _ := h.rule
  keep h _ ha _ := by
    refine ⟨h.rule.1, h.rule.2.1, ?_⟩
    intro i d he
    cases he
    exact ⟨le_rfl, h.room ha⟩

/-- In every window of `windowSteps` timestamps, a run on ticks in order fills at most
`maxTxPerWindow` times. -/
theorem rate_limited {s : RunState A X} (hpend : s.pending = none) (hs : s.settled = [])
    {ticks : List MarketTick} (ht : InOrder ticks) (a : ℤ) :
    (within s.policy.config.windowSteps a (fills (r.loop s ticks).settled)).length ≤
      s.policy.config.maxTxPerWindow := by
  have hstart : ∀ b, At (Rated s.policy.config b) s := by
    intro b
    refine ⟨rfl, ?_, ?_⟩
    · rw [hs]
      exact tallied_nil PolicyEngine.stamps_nonneg
    · intro i d he
      rw [hpend] at he
      cases he
  obtain ⟨lo, hlo⟩ := ht.lower
  obtain ⟨b, -, htally, -⟩ := loop_inOrder (Rated s.policy.config) Rated.mono
    (fun h => (rated_moved (r := r)).onTick h fun _ _ => trivial) ht hlo (hstart lo)
  exact htally.admitted.length_within

/-- A purchase a tick, under a limit of five in ten. -/
theorem rate_limited_buy :
    let filled := fills ((aRunner buyOne 1).loop aState (marketTicks "BTC" [100, 101, 102])).settled
    filled.length = 2 ∧ (within 10 0 filled).length ≤ 5 := by
  intro filled
  have hlim := rate_limited (s := aState) (r := aRunner buyOne 1) rfl rfl
    (marketTicks_inOrder "BTC" [100, 101, 102]) 0
  exact ⟨by decide +kernel, hlim⟩

end Runner

/-! ## The spend budget -/

/-- The notional an intent executes when it fills at this tick. -/
def SimExecutor.cost (x : SimExecutor) (i : Intent) (t : MarketTick) : ℚ :=
  i.baseAmount * x.fillPrice i.side t.price

namespace Runner

variable {A : Type} {r : Runner A Unit} {x : SimExecutor} {t : MarketTick} {cfg : PolicyConfig}
  {now : ℤ} {b : ℚ} {next : Option MarketTick}

variable (r) in
/-- Where an intent settles that is approved at `t`, with these ticks to come. -/
def settlesAt (t : MarketTick) (rest : List MarketTick) : Option MarketTick :=
  if r.executionDelay ≤ 0 then some t else rest.head?

variable (r) in
/-- Every intent approved in the run executes, where it settles, a notional that is not
negative and not above the one it was approved with. -/
def WithinApproval (x : SimExecutor) : RunState A Unit → List MarketTick → Prop
  | _, [] => True
  | s, t :: rest =>
      (∀ i ∈ r.approved s t, ∀ u ∈ r.settlesAt t rest,
        0 ≤ x.cost i u ∧ x.cost i u ≤ i.notional t.price) ∧
      WithinApproval x (r.onTick s t) rest

instance (x : SimExecutor) : ∀ (s : RunState A Unit) (ticks : List MarketTick),
    Decidable (r.WithinApproval x s ticks)
  | _, [] => isTrue trivial
  | s, t :: rest =>
      have := instDecidableWithinApproval x (r.onTick s t) rest
      inferInstanceAs (Decidable (_ ∧ _))

/-- At time `now` the spend window covers the fills, and a pending intent has room for
what it costs at the tick that comes next. -/
def Slated (x : SimExecutor) (cfg : PolicyConfig) (b : ℚ) (now : ℤ) (next : Option MarketTick) :
    Relates := fun _ p pend st =>
  p.config = cfg ∧ Tallied cfg.spendWindow (b + eps) now p.spend (fills st) ∧
    ∀ i d, pend = some (i, d) →
      d ≤ now ∧ ∀ u ∈ next, Fits cfg.spendWindow (b + eps) d (fills st) (x.cost i u)

theorem Slated.mono {now' : ℤ} {w : SimWallet} {p : PolicyEngine} {pend : Option (Intent × ℤ)}
    {st : List Settlement} (hn : now ≤ now') (h : Slated x cfg b now next w p pend st) :
    Slated x cfg b now' next w p pend st :=
  ⟨h.1, h.2.1.mono hn, fun i d he => ⟨(h.2.2 i d he).1.trans hn, (h.2.2 i d he).2⟩⟩

/-- With nothing pending, the next tick does not matter. -/
theorem Slated.idle {w : SimWallet} {p : PolicyEngine} {pend : Option (Intent × ℤ)}
    {st : List Settlement} (h : Slated x cfg b now next w p pend st) (next' : Option MarketTick) :
    Slated x cfg b now next' w p none st :=
  ⟨h.1, h.2.1, fun _ _ he => by cases he⟩

theorem Slated.rule {w : SimWallet} {p : PolicyEngine} {i : Intent} {st : List Settlement}
    (h : Slated x cfg b t.ts none w p none st) :
    Slated x cfg b t.ts none w (p.evaluate i t w none).2 none st := by
  have haged : p.Aged t.ts (p.evaluate i t w none).2 := PolicyEngine.evaluate_aged
  obtain ⟨rfl, htally, -⟩ := h
  exact ⟨haged.config, haged.tallied htally, fun _ _ he => by cases he⟩

/-- An approved intent has room in the spend window for anything up to its notional. -/
theorem Slated.room {w : SimWallet} {p : PolicyEngine} {i : Intent} {st : List Settlement} {n : ℚ}
    (h : Slated x cfg b t.ts none w p none st) (hb : cfg.maxNotionalPerWindow = some b)
    (ha : PolicyEngine.Approved p i t w) (hn : 0 ≤ n) (hle : n ≤ i.notional t.price) :
    Fits cfg.spendWindow (b + eps) t.ts (fills st) n := by
  obtain ⟨rfl, htally, -⟩ := h
  refine htally.fits hn ?_
  calc load (trail p.config.spendWindow t.ts p.spend) + n
      ≤ p.spentAt t.ts + i.notional t.price := add_le_add_right hle _
    _ ≤ b + eps := ha.budget b hb

theorem Slated.fill {w w' : SimWallet} {p : PolicyEngine} {pend : Option (Intent × ℤ)} {i : Intent}
    {f : Fill} {st : List Settlement} {d : ℤ} {next' : Option MarketTick}
    (h : Slated x cfg b t.ts next w p pend st) (hfill : f = x.fill i t)
    (hf : Fits cfg.spendWindow (b + eps) d (fills st) (x.cost i t)) (hd : d ≤ t.ts) :
    Slated x cfg b t.ts next' w' (p.registerFill t.ts (f.baseAmount * f.price)) none
      (st ++ [⟨i, t, w, f, w'⟩]) := by
  subst hfill
  refine ⟨h.1, ?_, fun _ _ he => by cases he⟩
  rw [fills_snoc]
  exact h.2.1.push hf hd

theorem slated_moved (hx : r.executor = x.toExecutor) (hb : cfg.maxNotionalPerWindow = some b)
    (rest : List MarketTick) :
    Moved r (Slated x cfg b t.ts (some t)) (Slated x cfg b t.ts none)
      (Slated x cfg b t.ts rest.head?) t
      (fun i => ∀ u ∈ r.settlesAt t rest, 0 ≤ x.cost i u ∧ x.cost i u ≤ i.notional t.price) where
  fillPending h he := h.fill (executes hx he).1 ((h.2.2 _ _ rfl).2 t rfl) (h.2.2 _ _ rfl).1
  dropPending h _ := h.idle none
  settled h := h.idle none
  hold h := h.idle rest.head?
  rule h := h.rule.idle rest.head?
  fillNow h hP ha hd he := by
    obtain ⟨hpos, hle⟩ := hP t (if_pos hd)
    exact h.rule.fill (executes hx he).1 (h.room hb ha hpos hle) le_rfl
  dropNow h _ _ := h.rule.idle rest.head?
  keep h hP ha hd := by
    refine ⟨h.rule.1, h.rule.2.1, ?_⟩
    intro i d he
    cases he
    refine ⟨le_rfl, ?_⟩
    intro u hu
    obtain ⟨hpos, hle⟩ := hP u ((if_neg (not_le.mpr hd)).trans hu)
    exact h.room hb ha hpos hle

theorem Slated.loop (hx : r.executor = x.toExecutor) (hb : cfg.maxNotionalPerWindow = some b)
    {ticks : List MarketTick} (ht : InOrder ticks) :
    ∀ {s : RunState A Unit} {now : ℤ}, (∀ t ∈ ticks, now ≤ t.ts) → r.WithinApproval x s ticks →
      At (Slated x cfg b now ticks.head?) s →
      ∃ now', At (Slated x cfg b now' none) (r.loop s ticks) := by
  induction ticks with
  | nil => exact fun {_ now} _ _ h => ⟨now, h⟩
  | cons t rest ih =>
      intro s now hnow happ h
      obtain ⟨hfirst, hrest⟩ := List.pairwise_cons.mp ht
      have hstep := (slated_moved hx hb rest).onTick
        (show At (Slated x cfg b t.ts (some t)) s from h.mono (hnow t List.mem_cons_self)) happ.1
      exact ih hrest hfirst happ.2 hstep

/-- In a run on ticks in order in which no approved intent executes more than it was
approved with, the executed notional stays within the budget in every spend window that
holds a fill. -/
theorem budget_kept (hx : r.executor = x.toExecutor) {s : RunState A Unit} (hpend : s.pending = none)
    (hs : s.settled = []) (hspend : ∀ p ∈ s.policy.spend, 0 ≤ p.2) {ticks : List MarketTick}
    (ht : InOrder ticks) (h : r.WithinApproval x s ticks)
    (hb : s.policy.config.maxNotionalPerWindow = some b) (a : ℤ)
    (hne : within s.policy.config.spendWindow a (fills (r.loop s ticks).settled) ≠ []) :
    load (within s.policy.config.spendWindow a (fills (r.loop s ticks).settled)) ≤ b + eps := by
  obtain ⟨lo, hlo⟩ := ht.lower
  have hstart : At (Slated x s.policy.config b lo ticks.head?) s := by
    refine ⟨rfl, ?_, ?_⟩
    · rw [hs]
      exact tallied_nil hspend
    · intro i d he
      rw [hpend] at he
      cases he
  obtain ⟨now, -, htally, -⟩ := Slated.loop hx hb ht hlo h hstart
  exact htally.admitted.load_within hne

/-- `aState` with a budget of 100 in ten ticks. -/
def thriftyState : RunState Unit Unit :=
  { aState with policy := { aState.policy with config :=
      { aState.policy.config with maxNotionalPerWindow := some 100 } } }

/-- One unit approved at 100 and filled at 99. -/
theorem budget_kept_falling :
    let filled := fills ((aRunner buyOne 1).loop thriftyState (marketTicks "BTC" [100, 99])).settled
    filled ≠ [] ∧ load (within 10 0 filled) ≤ 100 + eps := by
  intro filled
  have hne : within 10 0 filled ≠ [] := by decide +kernel
  have hkept := budget_kept (r := aRunner buyOne 1) (s := thriftyState) (x := {}) rfl rfl rfl
    (fun _ hp => absurd hp List.not_mem_nil) (marketTicks_inOrder "BTC" [100, 99])
    (by decide +kernel) rfl 0 hne
  exact ⟨by decide +kernel, hkept⟩

/-- One unit approved at 100, which is all of the budget, and filled at 101 and the
slippage. -/
theorem rising_price_exceeds_budget : InOrder twoTicks ∧ (∀ t ∈ twoTicks, 0 < t.price) ∧
    thriftyState.policy.config.maxNotionalPerWindow = some 100 ∧
    ¬ load (within thriftyState.policy.config.spendWindow 0
      (fills ((aRunner buyOne 1).loop thriftyState twoTicks).settled)) ≤ 100 + eps :=
  ⟨marketTicks_inOrder _ _, twoTicks_pos, rfl, by decide +kernel⟩

end Runner

end TreasuryForge

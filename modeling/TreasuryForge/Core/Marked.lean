/-
# `Core.Marked` — the price a report is marked at

The report marks the final wallet at the prices that `_log` remembers.  `_log` runs for a
tick that settles, denies or holds, and not for one whose only outcome is that an approved
intent is kept for the next tick: after such a tick the price remembered is an older one, or
none.
-/
import TreasuryForge.Core.Bounds
import TreasuryForge.Core.Portfolio

namespace TreasuryForge

/-! ## Marking one coin -/

/-- At prices of one coin only, the rest of the wallet counts nothing. -/
theorem SimWallet.equity_only (w : SimWallet) {prices : Dict String ℚ} {symbol : String}
    (honly : ∀ k, k ≠ symbol → prices.get? k = none) :
    w.equity prices = w.quote + w.baseBalance symbol * prices.getD symbol 0 := by
  have hprice : ∀ k, prices.getD k 0 =
      (MarketTick.prices ⟨symbol, prices.getD symbol 0, 0⟩).getD k 0 := by
    intro k
    rw [MarketTick.prices, Dict.getD_set]
    by_cases hk : k = symbol
    · rw [if_pos hk, hk]
    · rw [if_neg hk, Dict.getD, honly k hk]
      rfl
  have hequity : w.equity prices =
      w.equity (MarketTick.prices ⟨symbol, prices.getD symbol 0, 0⟩) := by
    unfold SimWallet.equity
    refine congrArg (w.quote + ·) (congrArg List.sum (List.map_congr_left fun p _ => ?_))
    exact congrArg (p.2 * ·) (hprice p.1)
  exact hequity.trans (w.equity_tick _)

namespace Runner

variable {A X : Type} {r : Runner A X} {s : RunState A X} {t : MarketTick}

/-! ## What is remembered -/

variable (r) in
/-- No price of another coin is remembered, as in a runner that is new or has run before. -/
def Remembers (s : RunState A X) : Prop := ∀ k, k ≠ r.symbol → s.lastPrices.get? k = none

variable (r) in
/-- The tick is logged: something was pending before it, or nothing is pending after it. -/
def Logged (s : RunState A X) (t : MarketTick) : Prop :=
  s.pending.isSome ∨ r.executionDelay ≤ 0 ∨ r.approved s t = none

/-- What is remembered after the tick, in these two states: its price. -/
def MarkedAt (r : Runner A X) (t : MarketTick) (s : RunState A X) : Prop :=
  s.lastPrices = Dict.empty.set r.symbol t.price

theorem MarkedAt.remembers (h : MarkedAt r t s) : r.Remembers s := by
  intro k hk
  rw [h, Dict.get?_set_of_ne _ _ hk]
  rfl

theorem log_marked (s : RunState A X) (t : MarketTick) (kind : LedgerKind) :
    MarkedAt r t (r.log s t.ts t.price kind) := rfl

theorem journal_lastPrices (s : RunState A X) (ws : List Write) :
    (r.journal s ws).lastPrices = s.lastPrices := by
  unfold journal
  split <;> rfl

theorem settle_marked (s : RunState A X) (i : Intent) (t : MarketTick) :
    MarkedAt r t (r.settle s i t) := by
  unfold settle
  rcases r.executor.execute s.executor i t s.wallet with ⟨e | fill, wallet, x⟩
  · exact log_marked _ t _
  · exact (journal_lastPrices _ _).trans (log_marked _ t _)

/-- A denied or settled intent is logged; a kept one leaves what is remembered, and the
wallet. -/
theorem dispose_marked (s : RunState A X) (i : Intent) (t : MarketTick) :
    if (s.policy.evaluate i t s.wallet none).1.allowed = true ∧ 0 < r.executionDelay then
      (r.dispose s i t).lastPrices = s.lastPrices ∧ (r.dispose s i t).wallet = s.wallet
    else MarkedAt r t (r.dispose s i t) := by
  unfold dispose
  dsimp only
  cases (s.policy.evaluate i t s.wallet none).1.allowed with
  | false =>
      rw [if_neg (by simp), if_pos rfl]
      split
      · exact (journal_lastPrices _ _).trans (log_marked _ t _)
      · exact log_marked _ t _
  | true =>
      rw [if_neg Bool.true_eq_false.mp]
      by_cases hd : r.executionDelay ≤ 0
      · rw [if_neg (fun h => absurd h.2 (not_lt.mpr hd)), if_pos hd]
        exact settle_marked _ i t
      · rw [if_pos ⟨rfl, not_le.mp hd⟩, if_neg hd]
        exact ⟨rfl, rfl⟩

theorem opened_keeps (s : RunState A X) (t : MarketTick) :
    (opened s t).pending = s.pending ∧ (opened s t).lastPrices = s.lastPrices ∧
      (opened s t).wallet = s.wallet := by
  unfold opened
  split <;> exact ⟨rfl, rfl, rfl⟩

/-- A pending intent is settled, so the tick is logged; with none, nothing has changed. -/
theorem settlePending_marked (s : RunState A X) (t : MarketTick) :
    let s₂ := r.settlePending (opened s t) t
    if s.pending.isSome then MarkedAt r t s₂
    else s₂.lastPrices = s.lastPrices ∧ s₂.wallet = s.wallet := by
  obtain ⟨hpending, hlast, hwallet⟩ := opened_keeps s t
  unfold settlePending
  rw [hpending]
  cases s.pending with
  | none => exact ⟨hlast, hwallet⟩
  | some d => exact settle_marked _ d.1 t

/-- One tick: it is logged and its price is the one remembered, or it changes neither what
is remembered nor the wallet. -/
theorem onTick_marked (s : RunState A X) (t : MarketTick) :
    (r.Logged s t ∧ MarkedAt r t (r.onTick s t)) ∨
      (¬ r.Logged s t ∧ (r.onTick s t).lastPrices = s.lastPrices ∧
        (r.onTick s t).wallet = s.wallet) := by
  have hpending := settlePending_marked (r := r) s t
  unfold Logged approved onTick
  dsimp only at hpending ⊢
  generalize r.settlePending (opened s t) t = s₂ at hpending ⊢
  rcases r.agent.decide s₂.agent t s₂.wallet with ⟨_ | i, a⟩
  · exact Or.inl ⟨Or.inr (Or.inr rfl), log_marked _ t _⟩
  · have hdispose := dispose_marked (r := r) { s₂ with agent := a } i t
    dsimp only at hdispose ⊢
    by_cases hkept : (s₂.policy.evaluate i t s₂.wallet none).1.allowed = true ∧ 0 < r.executionDelay
    · rw [if_pos hkept] at hdispose
      rw [Option.filter_some, if_pos hkept.1]
      cases hp : s.pending.isSome with
      | true =>
          rw [hp, if_pos rfl] at hpending
          exact Or.inl ⟨Or.inl rfl, hdispose.1.trans hpending⟩
      | false =>
          rw [hp, if_neg Bool.false_ne_true] at hpending
          refine Or.inr ⟨?_, hdispose.1.trans hpending.1, hdispose.2.trans hpending.2⟩
          rintro (h | h | h)
          · exact Bool.false_ne_true h
          · exact absurd hkept.2 (not_lt.mpr h)
          · cases h
    · rw [if_neg hkept] at hdispose
      refine Or.inl ⟨?_, hdispose⟩
      by_cases hd : r.executionDelay ≤ 0
      · exact Or.inr (Or.inl hd)
      · refine Or.inr (Or.inr ?_)
        rw [Option.filter_some, if_neg fun h => hkept ⟨h, not_le.mp hd⟩]

theorem Remembers.onTick (h : r.Remembers s) (t : MarketTick) : r.Remembers (r.onTick s t) := by
  rcases onTick_marked (r := r) s t with ⟨-, hmarked⟩ | ⟨-, hlast, -⟩
  · exact hmarked.remembers
  · intro k hk
    rw [hlast]
    exact h k hk

theorem Remembers.loop (h : r.Remembers s) (ticks : List MarketTick) :
    r.Remembers (r.loop s ticks) :=
  List.foldlRecOn ticks r.onTick h fun _ hs t _ => hs.onTick t

/-! ## The report -/

/-- The report of a run is marked at its last tick exactly when that tick is logged, or the
wallet before it holds none of the coin, or the price remembered then is the one of the tick. -/
theorem final_equity_marked_iff (hs : r.Remembers s) (ticks : List MarketTick)
    (hsymbol : t.symbol = r.symbol) :
    (r.run s (ticks ++ [t])).finalEquity =
        (r.loop s (ticks ++ [t])).wallet.equity t.prices ↔
      r.Logged (r.loop s ticks) t ∨ (r.loop s ticks).wallet.baseBalance r.symbol = 0 ∨
        (r.loop s ticks).lastPrices.getD r.symbol 0 = t.price := by
  have hloop : r.loop s (ticks ++ [t]) = r.onTick (r.loop s ticks) t := by
    rw [loop, List.foldl_append]
    rfl
  rw [run, hloop]
  dsimp only
  have hbefore := hs.loop ticks
  generalize r.loop s ticks = s₁ at hbefore ⊢
  rcases onTick_marked (r := r) s₁ t with ⟨hlogged, hmarked⟩ | ⟨hlogged, hlast, hwallet⟩
  · refine iff_of_true ?_ (Or.inl hlogged)
    rw [hmarked, MarketTick.prices, hsymbol]
  · rw [hlast, hwallet, SimWallet.equity_only _ hbefore, SimWallet.equity_tick, hsymbol,
      add_right_inj, mul_eq_mul_left_iff]
    constructor
    · rintro (hprice | hnone)
      · exact Or.inr (Or.inr hprice)
      · exact Or.inr (Or.inl hnone)
    · rintro (h | hnone | hprice)
      · exact absurd h hlogged
      · exact Or.inr hnone
      · exact Or.inl hprice

/-- The second tick settles what the first one left, and is logged. -/
theorem final_equity_marked_iff_two :
    ((aRunner buyOne 1).run aState ([⟨"BTC", 100, 0⟩] ++ [⟨"BTC", 101, 1⟩])).finalEquity =
        ((aRunner buyOne 1).loop aState ([⟨"BTC", 100, 0⟩] ++ [⟨"BTC", 101, 1⟩])).wallet.equity
          (MarketTick.prices ⟨"BTC", 101, 1⟩) ↔
      (aRunner buyOne 1).Logged ((aRunner buyOne 1).loop aState [⟨"BTC", 100, 0⟩]) ⟨"BTC", 101, 1⟩ ∨
        ((aRunner buyOne 1).loop aState [⟨"BTC", 100, 0⟩]).wallet.baseBalance "BTC" = 0 ∨
        ((aRunner buyOne 1).loop aState [⟨"BTC", 100, 0⟩]).lastPrices.getD "BTC" 0 = 101 :=
  final_equity_marked_iff (fun _ _ => rfl) [⟨"BTC", 100, 0⟩] rfl

/-- A run of one tick that approves a purchase: five units at 100 are not counted. -/
theorem one_tick_unmarked :
    ((aRunner buyOne 1).run aState [⟨"BTC", 100, 0⟩]).finalEquity = 1000 ∧
      ((aRunner buyOne 1).loop aState [⟨"BTC", 100, 0⟩]).wallet.equity
        (MarketTick.prices ⟨"BTC", 100, 0⟩) = 1500 := by decide +kernel

end Runner

end TreasuryForge

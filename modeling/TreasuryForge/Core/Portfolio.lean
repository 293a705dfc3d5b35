/-
# `Core.Portfolio` — the drawdown breaker and positions in several symbols

`evaluate` marks the wallet with the one price the tick brings, and every other position
counts zero.  So the equity it compares with the anchor is the quote and the tick's own
position (`equity_tick`), and a tick of another symbol shows another equity although no
price has moved.  `untripped_iff` says which portfolios and orders of symbols the breaker
takes for a drawdown, with every price constant and nothing filled: those with a tick whose
own position, with the quote, is worth less than the first tick's less the allowance.
-/
import TreasuryForge.Core.Policy

namespace TreasuryForge

namespace SimWallet

/-- At a tick the wallet is worth its quote and its position in the tick's symbol. -/
theorem equity_tick (w : SimWallet) (t : MarketTick) :
    w.equity t.prices = w.quote + w.baseBalance t.symbol * t.price := by
  have hzero : ∀ q, (SimWallet.mk q (w.positions.set t.symbol 0)).equity t.prices = q := by
    intro q
    have hall : ∀ x ∈ ((w.positions.set t.symbol 0).items.map fun p => p.2 * t.prices.getD p.1 0),
        x = 0 := by
      intro x hx
      obtain ⟨⟨k, a⟩, hp, rfl⟩ := List.mem_map.mp hx
      simp only [prices_getD]
      split
      · next hk =>
          -- the only priced position was set to zero
          rcases (Dict.mem_setRaw w.positions.nodup).mp hp with he | ⟨-, hne⟩
          · cases he
            exact zero_mul _
          · exact absurd hk hne
      · exact mul_zero _
    show q + _ = q
    rw [List.sum_eq_zero hall, add_zero]
  have h := equity_set w w.quote t.symbol 0 t.prices
  rw [hzero, prices_getD, if_pos rfl] at h
  linarith

end SimWallet

namespace PolicyEngine

/-- A call of `evaluate`. -/
structure Query where
  intent : Intent
  tick : MarketTick
  dataAgeNs : Option ℤ := none

/-- The engine after these calls, with nothing filled in between. -/
def queried (e : PolicyEngine) (wallet : SimWallet) (qs : List Query) : PolicyEngine :=
  qs.foldl (fun e q => (e.evaluate q.intent q.tick wallet q.dataAgeNs).2) e

/-- The value of the quote and of the position in the tick's symbol. -/
def ownValue (wallet : SimWallet) (t : MarketTick) : ℚ :=
  wallet.quote + wallet.baseBalance t.symbol * t.price

variable {e : PolicyEngine} {wallet : SimWallet} {qs : List Query}

/-- Once the anchor is set, the trips are those of the ticks below its floor. -/
theorem queried_tripped {start : ℚ} (hs : e.startingEquity = some start) :
    (e.queried wallet qs).tripped = true ↔
      e.tripped = true ∨ e.config.killSwitch = false ∧
        ∃ q ∈ qs, ownValue wallet q.tick < start * (1 - e.config.maxDrawdownPct) := by
  induction qs generalizing e with
  | nil => simp [queried]
  | cons q qs ih =>
      have hstart : (e.evaluate q.intent q.tick wallet q.dataAgeNs).2.startingEquity = some start := by
        rw [evaluate_anchor, hs]
        rfl
      have hcfg : (e.evaluate q.intent q.tick wallet q.dataAgeNs).2.config = e.config :=
        evaluate_aged.config
      have hbreaks : e.Breaks q.tick wallet ↔ e.config.killSwitch = false ∧ (e.tripped = true ∨
          ownValue wallet q.tick < start * (1 - e.config.maxDrawdownPct)) := by
        rw [Breaks, hs, SimWallet.equity_tick]
        rfl
      have hrest := ih hstart
      rw [hcfg, evaluate_tripped_iff, hbreaks] at hrest
      refine Iff.trans hrest ?_
      simp only [List.mem_cons, exists_eq_or_imp]
      constructor
      · rintro ((ht | ⟨hk, ht | hq⟩) | ⟨hk, hq⟩)
        · exact Or.inl ht
        · exact Or.inl ht
        · exact Or.inr ⟨hk, Or.inl hq⟩
        · exact Or.inr ⟨hk, Or.inr hq⟩
      · rintro (ht | ⟨hk, hq | hq⟩)
        · exact Or.inl (Or.inl ht)
        · exact Or.inl (Or.inr ⟨hk, Or.inr hq⟩)
        · exact Or.inr ⟨hk, hq⟩

/-- Ten of `A` and one of `B`, each at a price of 100. -/
def lopsided : SimWallet := { quote := 0, positions := (Dict.empty.set "A" 10).set "B" 1 }

def tenPercent : PolicyConfig where
  allowedSymbols := ["A", "B"]
  maxNotionalPerTx := 500
  maxTxPerWindow := 100
  windowSteps := 10
  maxDrawdownPct := 1 / 10

/-- A query at a tick of this symbol, at 100. -/
def queryOf (symbol : String) : Query where
  intent := { symbol := symbol, side := .sell, baseAmount := 1 }
  tick := ⟨symbol, 100, 0⟩

end PolicyEngine

end TreasuryForge

/-
# `Core.Wallet` — the simulated wallet

`treasuryforge/wallet.py`.  A fill is the only thing that changes a balance, and
`applyFill` refuses one that would drive a balance below `-1e-9`; a balance
between that and zero is clamped to zero.  `applyFill_ok` says exactly when a
fill is accepted and what the wallet is then; `equity_set` is the marked value after
a change of one balance.
-/
import TreasuryForge.Base.Decimal
import TreasuryForge.Base.Dict
import TreasuryForge.Core.Types

namespace TreasuryForge

/-- The tolerance of every balance and limit comparison: `1e-9`. -/
def eps : ℚ := 1 / 10 ^ 9

/-- The overdraft a fill was refused for, with its message. -/
structure InsufficientFunds where
  message : String
  deriving DecidableEq, Repr

structure SimWallet where
  quote : ℚ
  positions : Dict String ℚ := Dict.empty

/-- The `prices` dictionary a tick is marked with. -/
def MarketTick.prices (t : MarketTick) : Dict String ℚ := Dict.empty.set t.symbol t.price

namespace SimWallet

def baseBalance (w : SimWallet) (symbol : String) : ℚ := w.positions.getD symbol 0

/-- Quote plus the marked value of every position; an unpriced one counts zero. -/
def equity (w : SimWallet) (prices : Dict String ℚ) : ℚ :=
  w.quote + (w.positions.items.map fun p => p.2 * prices.getD p.1 0).sum

def applyFill (w : SimWallet) (f : Fill) : Except InsufficientFunds SimWallet :=
  let newQuote := w.quote + f.quoteDelta
  let newBase := w.baseBalance f.symbol + f.baseDelta
  if newQuote < -eps then
    .error ⟨s!"quote would go negative: {Decimal.fixed 6 newQuote} " ++
      s!"(have {Decimal.fixed 6 w.quote})"⟩
  else if newBase < -eps then
    .error ⟨s!"{f.symbol} would go negative: {Decimal.fixed 6 newBase}"⟩
  else
    .ok { quote := max newQuote 0, positions := w.positions.set f.symbol (max newBase 0) }

/-- No balance is negative. -/
structure Solvent (w : SimWallet) : Prop where
  quote : 0 ≤ w.quote
  positions : ∀ p ∈ w.positions.items, 0 ≤ p.2

theorem applyFill_ok {w w' : SimWallet} {f : Fill} :
    w.applyFill f = .ok w' ↔
      -eps ≤ w.quote + f.quoteDelta ∧ -eps ≤ w.baseBalance f.symbol + f.baseDelta ∧
      w' = { quote := max (w.quote + f.quoteDelta) 0,
             positions := w.positions.set f.symbol (max (w.baseBalance f.symbol + f.baseDelta) 0) } := by
  simp only [applyFill]
  by_cases hq : w.quote + f.quoteDelta < -eps
  · rw [if_pos hq]
    exact ⟨fun h => (nomatch h), fun h => absurd hq (not_lt.mpr h.1)⟩
  · rw [if_neg hq]
    by_cases hb : w.baseBalance f.symbol + f.baseDelta < -eps
    · rw [if_pos hb]
      exact ⟨fun h => (nomatch h), fun h => absurd hb (not_lt.mpr h.2.1)⟩
    · rw [if_neg hb]
      simp only [Except.ok.injEq]
      exact ⟨fun h => ⟨not_lt.mp hq, not_lt.mp hb, h.symm⟩, fun h => h.2.2.symm⟩

theorem baseBalance_set (w : SimWallet) (q : ℚ) (s : String) (v : ℚ) :
    (SimWallet.mk q (w.positions.set s v)).baseBalance s = v := by
  simp [baseBalance, Dict.getD_set]

theorem Solvent.baseBalance {w : SimWallet} (h : w.Solvent) (s : String) : 0 ≤ w.baseBalance s :=
  Dict.getD_of_all le_rfl h.positions s

/-- Whatever the wallet was, an accepted fill leaves the balances it writes non-negative. -/
theorem Solvent.applyFill {w w' : SimWallet} {f : Fill} (h : w.Solvent)
    (hf : w.applyFill f = .ok w') : w'.Solvent := by
  obtain ⟨_, _, rfl⟩ := applyFill_ok.mp hf
  refine ⟨le_max_right _ _, ?_⟩
  intro p hp
  rcases (Dict.mem_setRaw w.positions.nodup).mp hp with rfl | ⟨hm, _⟩
  · exact le_max_right _ _
  · exact h.positions p hm

theorem prices_getD (t : MarketTick) (s : String) :
    t.prices.getD s 0 = if s = t.symbol then t.price else 0 :=
  Dict.getD_set _ _ _ _ _

/-- Writing the quote and one position changes the marked value by those alone. -/
theorem equity_set (w : SimWallet) (q : ℚ) (s : String) (v : ℚ) (prices : Dict String ℚ) :
    (SimWallet.mk q (w.positions.set s v)).equity prices =
      w.equity prices + (q - w.quote) + (v - w.baseBalance s) * prices.getD s 0 := by
  have h := Dict.sum_set w.positions (fun k a => a * prices.getD k 0) s v
  simp only [equity]
  rw [h]
  have hg : ((w.positions.get? s).map fun a => a * prices.getD s 0).getD 0 =
      w.baseBalance s * prices.getD s 0 := by
    unfold baseBalance
    conv_rhs => unfold Dict.getD
    cases w.positions.get? s <;> simp [Dict.getD]
  rw [hg]
  ring

end SimWallet

end TreasuryForge

/-
# `Base.Holding` — what a holding earns along a path of prices

A state holds an amount, is worth more at a price in proportion to it, and steps at each item of
a path.  A step may change what the state is worth at the item's own price only by what it books.
Then what is earned over the path is what was booked and the `drift` of the price under each
holding (`worth_foldl`).
-/
import Mathlib.Algebra.Ring.Rat
import Mathlib.Tactic.LinearCombination

namespace TreasuryForge

namespace Holding

variable {S T : Type} (step : S → T → S) (price : T → ℚ) (held : S → ℚ)

/-- What the moves of the price bring to the holdings they find. -/
def drift : ℚ → S → List T → ℚ
  | _, _, [] => 0
  | p, s, t :: ts => held s * (price t - p) + drift (price t) (step s t) ts

/-- The last price of a path that starts at `p`. -/
def lastPrice : ℚ → List T → ℚ
  | p, [] => p
  | _, t :: ts => lastPrice (price t) ts

theorem lastPrice_eq (p : ℚ) {ts : List T} (hts : ts ≠ []) :
    lastPrice price p ts = price (ts.getLast hts) := by
  induction ts generalizing p with
  | nil => exact absurd rfl hts
  | cons t ts ih =>
      cases ts with
      | nil => rfl
      | cons u us => exact ih (price t) (List.cons_ne_nil u us)

/-- `worth` at a price moves with the price as the holding does, and a step moves it by what it
adds to `booked`. -/
structure Accounts (worth : S → ℚ → ℚ) (booked : S → ℚ) (good : T → Prop) : Prop where
  moves : ∀ s p q, worth s q = worth s p + held s * (q - p)
  books : ∀ s t, good t →
    worth (step s t) (price t) = worth s (price t) + (booked (step s t) - booked s)

variable {step price held} {worth : S → ℚ → ℚ} {booked : S → ℚ} {good : T → Prop}

theorem Accounts.worth_foldl (h : Accounts step price held worth booked good) :
    ∀ (s : S) (p : ℚ) (ts : List T), (∀ t ∈ ts, good t) →
      worth (ts.foldl step s) (lastPrice price p ts) =
        worth s p + drift step price held p s ts + (booked (ts.foldl step s) - booked s)
  | s, p, [], _ => by simp [lastPrice, drift]
  | s, p, t :: ts, hgood => by
      have hrest := h.worth_foldl (step s t) (price t) ts fun u hu =>
        hgood u (List.mem_cons_of_mem _ hu)
      have hmove := h.moves s p (price t)
      have hbooks := h.books s t (hgood t List.mem_cons_self)
      simp only [List.foldl_cons, lastPrice, drift]
      linear_combination hrest + hbooks + hmove

end Holding

end TreasuryForge

/-
# `Capital.Consultants` — the panel that has to agree before capital is risked

`consultants.py` over exact fractions: six consultants, each with a failure mode of its own, and
the committee that is unanimous or vetoes.  The deflated Sharpe ratio of one trial and the
generator of the ruin estimate are parameters.  The drawdown a consultant judges is that of the
whole path, from the capital it starts with (`drawdownOf_eq`).
-/
import TreasuryForge.Core.Gated
import TreasuryForge.Risk.Ruin
import Mathlib.Algebra.Order.Group.MinMax

namespace TreasuryForge

namespace Capital

open Backtest Drawdown Gate Risk

structure Vote where
  consultant : String
  approve : Bool
  reason : String
  deriving DecidableEq, Repr

structure CommitteeVerdict where
  approved : Bool
  votes : List Vote
  deriving DecidableEq, Repr

def CommitteeVerdict.vetoes (v : CommitteeVerdict) : List Vote := v.votes.filter (!·.approve)

def CommitteeVerdict.render (v : CommitteeVerdict) : String :=
  " | ".intercalate (v.votes.map fun v =>
    (if v.approve then "OK" else "VETO") ++ ":" ++ v.consultant)

/-- `f"{x:+.n%}"` -/
def signedPercent (n : ℕ) (x : ℚ) : String := signed x (percent n x)

/-! ## The consultants -/

def edge (deflatedSharpeRatio : List ℚ → ℚ) (returns : List ℚ) (minDsr : ℚ := 60 / 100) : Vote :=
  let dsr := deflatedSharpeRatio returns
  ⟨"edge", minDsr ≤ dsr, s!"DSR {Decimal.fixed 3 dsr} vs {Decimal.fixed 2 minDsr}"⟩

/-- An edge that is one outlier is none. -/
def concentration (returns : List ℚ) (maxShare : ℚ := 40 / 100) : Vote :=
  let wins := returns.filter (0 < ·)
  let gross := wins.sum
  let share := if 0 < gross then wins.foldl max 0 / gross else 1
  ⟨"concentration", share ≤ maxShare,
    s!"top trade {percent 0 share} of gross (max {percent 0 maxShare})"⟩

/-- Positive in both halves of the record. -/
def consistency (returns : List ℚ) (minWin : ℚ := 50 / 100) : Vote :=
  let n := returns.length
  let half := n / 2
  let first := (returns.take half).sum
  let second := (returns.drop half).sum
  let win : ℚ := if n = 0 then 0 else (returns.countP (0 < ·)) / n
  ⟨"consistency", 1 ≤ half ∧ 0 < first ∧ 0 < second ∧ minWin ≤ win,
    s!"halves {signedPercent 2 first}/{signedPercent 2 second}, win {percent 0 win}"⟩

/-- The loop of `_drawdown`. -/
def drawdownLoop (eq peak dd : ℚ) : List ℚ → ℚ
  | [] => dd
  | r :: returns =>
      let eq := eq * (1 + r)
      let peak := max peak eq
      drawdownLoop eq peak (min dd (eq / peak - 1)) returns

def drawdownOf (returns : List ℚ) : ℚ := drawdownLoop 1 1 0 returns

def drawdown (returns : List ℚ) (maxDd : ℚ := 25 / 100) : Vote :=
  let dd := drawdownOf returns
  ⟨"drawdown", -maxDd ≤ dd, s!"maxDD {percent 0 dd} (limit {percent 0 (-maxDd)})"⟩

/-- The chance of a drawdown on resampled paths. -/
def ruin (rng : Rng) (returns : List ℚ) (ddLimit : ℚ := 20 / 100) (maxPBreach : ℚ := 5 / 100) :
    Except Stop Vote := do
  if returns.length < 2 then return ⟨"ruin", true, "too few trades for a ruin estimate"⟩
  let res ← monteCarloRuin rng returns
    { paths := 2000, ruinDrawdown := ddLimit, ddThresholds := [ddLimit] } returns.length
  let p := res.ddThresholdProbs.getD ddLimit 0
  return ⟨"ruin", p ≤ maxPBreach,
    s!"P(maxDD>={percent 0 ddLimit}) {percent 1 p} (max {percent 0 maxPBreach})"⟩

/-- Growth with hardly a drawdown. -/
def isSteady (equity : List ℚ) : Bool :=
  let dd := (equity.foldl (fun (s : ℚ × ℚ) v =>
    let peak := if s.1 < v then v else s.1
    let curr := 1 - v / peak
    (peak, if s.2 < curr then curr else s.2)) (1, 0)).2
  1 < equity.getLastD 1 ∧ dd < 5 / 100

/-- Whether the edge still pays, and its equity is not fading to noise. -/
def regime (returns : List ℚ) (recent : ℚ := 1 / 3) (vrK : ℤ := 8) (vrMax : ℚ := 9 / 10) : Vote :=
  let n := returns.length
  if n < 1 then ⟨"regime", true, "empty returns"⟩
  else
    let w := max 1 ⌊n * recent⌋.toNat
    let tail := returns.drop (n - w)
    let m := tail.sum / tail.length
    if m ≤ 0 then ⟨"regime", false, s!"recent-{percent 0 recent} mean {signedPercent 3 m} <= 0"⟩
    else if (n : ℤ) ≤ vrK + 1 then
      ⟨"regime", true, s!"recent mean ok; too few trades ({n}) for VR"⟩
    else
      let equity := 1 :: equityCurve 1 returns
      match Signals.varianceRatio equity vrK with
      | .error e => ⟨"regime", true, "recent mean ok, VR skipped: " ++ e.replace "ValueError: " ""⟩
      | .ok vr =>
          let text := Decimal.fixed 2 vr
          let limit := Decimal.fixed 2 vrMax
          if vr < vrMax ∧ isSteady equity = false then
            ⟨"regime", false, s!"equity VR(k={vrK}) {text} < {limit}"⟩
          else if vr < vrMax then
            ⟨"regime", true, s!"recent mean ok, VR {text}<{limit} but steady growth"⟩
          else ⟨"regime", true, s!"recent mean ok, VR {text} >= {limit}"⟩

/-! ## The committee -/

section Committee

variable (deflatedSharpeRatio : List ℚ → ℚ) (rng : Rng)

/-- `_PANEL`, on one track record. -/
def panel (returns : List ℚ) : Except Stop (List Vote) := do
  let ruin ← ruin rng returns
  return [edge deflatedSharpeRatio returns, concentration returns, consistency returns,
    drawdown returns, ruin, regime returns]

/-- A unanimous panel. -/
def verdictOf (votes : List Vote) : CommitteeVerdict := ⟨votes.all (·.approve), votes⟩

/-- `Committee.review`; no consultant looks at the times. -/
def review (returns : List ℚ) : Except Stop CommitteeVerdict :=
  verdictOf <$> panel deflatedSharpeRatio rng returns

theorem ruin_returns (returns : List ℚ) : ∃ v, ruin rng returns = .ok v := by
  unfold ruin
  split
  · exact ⟨_, rfl⟩
  · next hlen =>
      have hne : returns ≠ [] := by
        rintro rfl
        exact hlen (by decide)
      obtain ⟨res, hres⟩ := monteCarloRuin_returns rng hne
        (c := { paths := 2000, ruinDrawdown := 20 / 100, ddThresholds := [20 / 100] })
        (by decide) (by decide) (le_refl (returns.length : ℤ))
      rw [hres]
      exact ⟨_, rfl⟩

/-- The committee always rules, and approves exactly what no consultant vetoes. -/
theorem review_returns (returns : List ℚ) :
    ∃ v, review deflatedSharpeRatio rng returns = .ok v ∧ (v.approved = true ↔ v.vetoes = []) := by
  obtain ⟨vote, hvote⟩ := ruin_returns rng returns
  rw [review, panel, hvote]
  refine ⟨_, rfl, ?_⟩
  rw [verdictOf, CommitteeVerdict.vetoes, List.filter_eq_nil_iff, List.all_eq_true]
  simp

end Committee

/-! ## The drawdown a consultant sees -/

theorem drawdownLoop_eq (returns : List ℚ) (eq peak dd : ℚ) :
    drawdownLoop eq peak dd returns = -track eq peak (-dd) (factors returns) := by
  induction returns generalizing eq peak dd with
  | nil => exact (neg_neg dd).symm
  | cons r returns ih =>
      have hworst : -min dd (eq * (1 + r) / max peak (eq * (1 + r)) - 1) =
          max (-dd) (1 - eq * (1 + r) / max peak (eq * (1 + r))) := by
        rw [← max_neg_neg, neg_sub]
      rw [drawdownLoop, ih, hworst]
      rfl

/-- The drawdown of the whole path, from the capital before the first period. -/
theorem drawdownOf_eq {returns : List ℚ} (h : ∀ r ∈ returns, 0 < 1 + r) :
    drawdownOf returns = -fall 1 (factors returns) := by
  rw [drawdownOf, drawdownLoop_eq, neg_zero, track_eq (factors_pos h) zero_lt_one zero_lt_one le_rfl,
    div_one, max_eq_right (fall_nonneg 1 _)]

end Capital

end TreasuryForge

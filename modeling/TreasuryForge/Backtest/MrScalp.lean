/-
# `Backtest.MrScalp` — the life of an order and of a trade

`backtest/mr_scalp_backtest.py`.  A bar first looks for an exit, then fills or drops the resting
order, then updates the signal, and then may rest an order.  `Held` is the invariant of all four
phases; `lifecycle` says what it makes of a run, and that the future is read for statistics only.
-/
import TreasuryForge.Signals.MrScalp
import Mathlib.Tactic.Linarith

namespace TreasuryForge

namespace MrScalp

open Loop Signals

structure CostModel (K : Type) [Field K] where
  makerFee : K := 15 / 10 ^ 5
  takerFee : K := 45 / 10 ^ 5
  spread : K := 3 / 10 ^ 4
  slippage : K := 2 / 10 ^ 4

def CostModel.roundTripEstimate {K : Type} [Field K] (c : CostModel K) : K :=
  2 * c.takerFee + c.spread + 2 * c.slippage

structure Trade (K : Type) where
  entryTs : ℤ
  exitTs : ℤ
  entryPrice : K
  exitPrice : K
  barsHeld : ℤ
  reason : String
  ret : K
  gross : K
  deriving DecidableEq, Repr

structure MrScalpResult (K : Type) where
  trades : List (Trade K) := []
  returns : List K := []
  nBars : ℕ := 0
  nSignaled : ℕ := 0
  nCostSkipped : ℕ := 0
  nPlaced : ℕ := 0
  nFilled : ℕ := 0
  nMissed : ℕ := 0
  missedWinners : ℕ := 0
  postFillDrift : K
  deriving DecidableEq, Repr

/-- The open position. -/
structure Position (K : Type) where
  ts : ℤ
  entry : K
  bars : ℤ
  deriving DecidableEq, Repr

structure State (K : Type) where
  sig : MrScalpSignal K
  /-- The bid of the maker buy that rests for the next bar. -/
  pending : Option K := none
  pos : Option (Position K) := none
  drifts : List K := []
  res : MrScalpResult K
  deriving DecidableEq, Repr

variable {K : Type} [Field K] [LinearOrder K] (m : Maths K) (p : MrScalpParams K)
  (cost : CostModel K)

/-! ## One bar -/

/-- Price, reason and fee of an exit, if there is one; the stop is assumed first. -/
def exitOf (pos : Position K) (cur : Option (Indicators K)) (bar : Bar K) :
    Option (K × String × K) :=
  let tp := pos.entry * (1 + p.tpNet + 2 * cost.makerFee)
  let sl := pos.entry * (1 + p.sl)
  if bar.l ≤ sl then some (sl * (1 - cost.slippage), "SL", cost.takerFee)
  else if tp ≤ bar.h then some (tp, "TP", cost.makerFee)
  else if cur.any fun i => p.zExit ≤ i.zscore then
    some (bar.c * (1 - cost.slippage), "ZEXIT", cost.takerFee)
  else if p.maxHoldBars ≤ pos.bars then some (bar.c * (1 - cost.slippage), "TIME", cost.takerFee)
  else none

/-- Exits of a position that an earlier bar opened. -/
def exits (s : State K) (bar : Bar K) : Except String (State K) :=
  match s.pos with
  | none => .ok s
  | some pos =>
      let pos := { pos with bars := pos.bars + 1 }
      match exitOf p cost pos s.sig.ind bar with
      | none => .ok { s with pos := some pos }
      | some (px, reason, fee) => do
          let gross ← divide (px - pos.entry) pos.entry
          let ratio ← divide (px * (1 - fee)) (pos.entry * (1 + cost.makerFee))
          let trade := ⟨pos.ts, bar.ts, pos.entry, px, pos.bars, reason, ratio - 1, gross⟩
          return { s with
            pos := none
            res.trades := s.res.trades ++ [trade]
            res.returns := s.res.returns ++ [ratio - 1] }

/-- The resting order against this bar; what comes of it later is read off the bars to come. -/
def resolve (bars : List (Bar K)) (i : ℕ) (s : State K) (bar : Bar K) : Except String (State K) :=
  match s.pos, s.pending with
  | none, some bid =>
      let n : ℤ := bars.length
      if bar.l ≤ bid then do
        let last ← index bars (min (i + p.maxHoldBars) (n - 1))
        let drift ← divide (last.c - bid) bid
        return { s with
          pending := none
          pos := some ⟨bar.ts, bid, 0⟩
          drifts := s.drifts ++ [drift]
          res.nFilled := s.res.nFilled + 1 }
      else
        let highs := (range i (min (i + p.maxHoldBars) n)).filterMap fun j =>
          bars[j.toNat]?.map (·.h)
        let hi := highs.max?.getD bid
        let won := if bid * (1 + p.tpNet) ≤ hi then 1 else 0
        return { s with
          pending := none
          res.nMissed := s.res.nMissed + 1
          res.missedWinners := s.res.missedWinners + won }
  | _, _ => .ok s

/-- Flat, and a signal: rest a maker buy for the next bar, if it is worth its costs. -/
def rest (s : State K) (bar : Bar K) : Except String (State K) :=
  match s.pos, s.pending, s.sig.ind with
  | none, none, some ind =>
      if s.sig.entryOk p cost.spread then do
        let s := { s with res.nSignaled := s.res.nSignaled + 1 }
        let snapback ← divide (ind.vwap - ind.close) ind.close
        if cost.roundTripEstimate + p.margin < snapback then
          return { s with
            pending := some (bar.c * (1 - cost.spread / 2)), res.nPlaced := s.res.nPlaced + 1 }
        else return { s with res.nCostSkipped := s.res.nCostSkipped + 1 }
      else .ok s
  | _, _, _ => .ok s

def onBar (bars : List (Bar K)) (s : State K) (bar : Bar K × ℕ) : Except String (State K) := do
  let s := { s with res.nBars := s.res.nBars + 1 }
  let s ← exits p cost s bar.1
  let s ← resolve p bars bar.2 s bar.1
  let sig ← s.sig.update m p bar.1
  rest p cost { s with sig } bar.1

/-- The state after the first `k` bars. -/
def stateAfter (bars : List (Bar K)) (sig : MrScalpSignal K) (k : ℕ) : Except String (State K) :=
  after (onBar m p cost bars) { sig, res := { postFillDrift := 0 } } bars.zipIdx k

def backtestMrScalp (bars : List (Bar K)) : Except String (MrScalpResult K) := do
  let sig ← MrScalpSignal.new p
  let s ← bars.zipIdx.foldlM (onBar m p cost bars) { sig, res := { postFillDrift := 0 } }
  let drift := if s.drifts = [] then 0 else s.drifts.sum / s.drifts.length
  return { s.res with postFillDrift := drift }

/-! ## What each phase can do -/

variable {m p cost}

theorem exitOf_eq_none {pos : Position K} {cur : Option (Indicators K)} {bar : Bar K}
    (h : exitOf p cost pos cur bar = none) : pos.bars < p.maxHoldBars := by
  unfold exitOf at h
  dsimp only at h
  split at h
  · cases h
  · split at h
    · cases h
    · split at h
      · cases h
      · split at h
        · cases h
        · next hold => exact not_le.mp hold

/-- No position: nothing happens.  A position gets a bar older, and is closed by that at the
latest at `max_hold_bars`. -/
theorem exits_ok {s s' : State K} {bar : Bar K} (h : exits p cost s bar = .ok s') :
    (s.pos = none ∧ s' = s) ∨
      (∃ pos, s.pos = some pos ∧ pos.bars + 1 < p.maxHoldBars ∧
        s' = { s with pos := some { pos with bars := pos.bars + 1 } }) ∨
      ∃ pos trade, s.pos = some pos ∧ trade.entryTs = pos.ts ∧ trade.exitTs = bar.ts ∧
        trade.barsHeld = pos.bars + 1 ∧
        s' = { s with
          pos := none
          res.trades := s.res.trades ++ [trade], res.returns := s.res.returns ++ [trade.ret] } := by
  unfold exits at h
  cases hpos : s.pos with
  | none =>
      rw [hpos] at h
      exact Or.inl ⟨rfl, (Except.ok.inj h).symm⟩
  | some pos =>
      rw [hpos] at h
      dsimp only at h
      right
      cases hexit : exitOf p cost { pos with bars := pos.bars + 1 } s.sig.ind bar with
      | none =>
          rw [hexit] at h
          exact Or.inl ⟨pos, rfl, exitOf_eq_none hexit, (Except.ok.inj h).symm⟩
      | some exit =>
          obtain ⟨px, reason, fee⟩ := exit
          rw [hexit] at h
          obtain ⟨gross, -, h⟩ := bind_eq_ok.mp h
          obtain ⟨ratio, -, h⟩ := bind_eq_ok.mp h
          exact Or.inr ⟨pos, _, rfl, rfl, rfl, rfl, (Except.ok.inj h).symm⟩

/-- A resting order is filled or missed when there is no position. -/
theorem resolve_ok {bars : List (Bar K)} {i : ℕ} {s s' : State K} {bar : Bar K}
    (h : resolve p bars i s bar = .ok s') :
    ((s.pos.isSome ∨ s.pending = none) ∧ s' = s) ∨
      (∃ bid drift, s.pos = none ∧ s.pending = some bid ∧
        s' = { s with
          pending := none, pos := some ⟨bar.ts, bid, 0⟩
          drifts := s.drifts ++ [drift], res.nFilled := s.res.nFilled + 1 }) ∨
      ∃ bid won, s.pos = none ∧ s.pending = some bid ∧
        s' = { s with
          pending := none
          res.nMissed := s.res.nMissed + 1, res.missedWinners := s.res.missedWinners + won } := by
  unfold resolve at h
  cases hpos : s.pos with
  | some pos =>
      rw [hpos] at h
      exact Or.inl ⟨Or.inl rfl, (Except.ok.inj h).symm⟩
  | none =>
      cases hpending : s.pending with
      | none =>
          rw [hpos, hpending] at h
          exact Or.inl ⟨Or.inr rfl, (Except.ok.inj h).symm⟩
      | some bid =>
          rw [hpos, hpending] at h
          dsimp only at h
          right
          split at h
          · obtain ⟨last, -, h⟩ := bind_eq_ok.mp h
            obtain ⟨drift, -, h⟩ := bind_eq_ok.mp h
            exact Or.inl ⟨bid, drift, rfl, rfl, (Except.ok.inj h).symm⟩
          · exact Or.inr ⟨bid, _, rfl, rfl, (Except.ok.inj h).symm⟩

/-- With neither position nor order, a signal is skipped or rests an order. -/
theorem rest_ok {s s' : State K} {bar : Bar K} (h : rest p cost s bar = .ok s') :
    s' = s ∨ s.pos = none ∧ s.pending = none ∧
      ((∃ bid, s' = { s with
          pending := some bid
          res.nSignaled := s.res.nSignaled + 1, res.nPlaced := s.res.nPlaced + 1 }) ∨
        s' = { s with
          res.nSignaled := s.res.nSignaled + 1
          res.nCostSkipped := s.res.nCostSkipped + 1 }) := by
  unfold rest at h
  split at h
  · next ind hpos hpending hind =>
      split at h
      · obtain ⟨snapback, -, h⟩ := bind_eq_ok.mp h
        refine Or.inr ⟨hpos, hpending, ?_⟩
        split at h
        · exact Or.inl ⟨_, (Except.ok.inj h).symm⟩
        · exact Or.inr (Except.ok.inj h).symm
      · exact Or.inl (Except.ok.inj h).symm
  · exact Or.inl (Except.ok.inj h).symm

/-! ## What a bar can do -/

/-- How a bar ends flat, before it may rest an order: it was flat with no order, or it closed
the position, or it missed the order. -/
inductive Cleared (s : State K) (bar : Bar K) : MrScalpResult K → Prop where
  | idle (hpos : s.pos = none) (hpending : s.pending = none) :
      Cleared s bar { s.res with nBars := s.res.nBars + 1 }
  | closed (pos : Position K) (trade : Trade K) (hpos : s.pos = some pos)
      (hentry : trade.entryTs = pos.ts) (hexit : trade.exitTs = bar.ts)
      (hheld : trade.barsHeld = pos.bars + 1) :
      Cleared s bar { s.res with
        nBars := s.res.nBars + 1
        trades := s.res.trades ++ [trade], returns := s.res.returns ++ [trade.ret] }
  | missed (bid : K) (won : ℕ) (hpos : s.pos = none) (hpending : s.pending = some bid) :
      Cleared s bar { s.res with
        nBars := s.res.nBars + 1
        nMissed := s.res.nMissed + 1, missedWinners := s.res.missedWinners + won }

/-- What a flat bar leaves resting. -/
inductive Rested (res : MrScalpResult K) : Option K → MrScalpResult K → Prop where
  | quiet : Rested res none res
  | placed (bid : K) :
      Rested res (some bid) { res with nSignaled := res.nSignaled + 1, nPlaced := res.nPlaced + 1 }
  | skipped :
      Rested res none
        { res with nSignaled := res.nSignaled + 1, nCostSkipped := res.nCostSkipped + 1 }

section
omit [Field K] [LinearOrder K]

theorem Rested.kept {res res' : MrScalpResult K} {pending : Option K} (h : Rested res pending res') :
    res'.nFilled = res.nFilled ∧ res'.trades = res.trades := by
  cases h with
  | quiet => exact ⟨rfl, rfl⟩
  | placed bid => exact ⟨rfl, rfl⟩
  | skipped => exact ⟨rfl, rfl⟩

theorem Cleared.nFilled {s : State K} {bar : Bar K} {res : MrScalpResult K}
    (h : Cleared s bar res) : res.nFilled = s.res.nFilled := by
  cases h with
  | idle hpos hpending => rfl
  | closed pos trade hpos hentry hexit hheld => rfl
  | missed bid won hpos hpending => rfl

end

inductive Effect (p : MrScalpParams K) (s s' : State K) (bar : Bar K) : Prop where
  | aged (pos : Position K) (hpos : s.pos = some pos) (hyoung : pos.bars + 1 < p.maxHoldBars)
      (hpos' : s'.pos = some { pos with bars := pos.bars + 1 }) (hpending' : s'.pending = none)
      (hres : s'.res = { s.res with nBars := s.res.nBars + 1 })
  | filled (bid : K) (hpos : s.pos = none) (hpending : s.pending = some bid)
      (hpos' : s'.pos = some ⟨bar.ts, bid, 0⟩) (hpending' : s'.pending = none)
      (hres : s'.res = { s.res with nBars := s.res.nBars + 1, nFilled := s.res.nFilled + 1 })
  | flat (res : MrScalpResult K) (hcleared : Cleared s bar res) (hpos' : s'.pos = none)
      (hrested : Rested res s'.pending s'.res)

/-- With no position and no order left, what the last phase can do. -/
theorem rested_of_rest {s s' : State K} {bar : Bar K} (h : rest p cost s bar = .ok s')
    (hpos : s.pos = none) (hpending : s.pending = none) :
    s'.pos = none ∧ Rested s.res s'.pending s'.res := by
  rcases rest_ok h with rfl | ⟨-, -, ⟨bid, rfl⟩ | rfl⟩
  · exact ⟨hpos, by rw [hpending]; exact .quiet⟩
  · exact ⟨hpos, .placed bid⟩
  · refine ⟨hpos, ?_⟩
    show Rested s.res s.pending _
    rw [hpending]
    exact .skipped

/-- With a position, the last phase does nothing. -/
theorem rest_of_pos {s s' : State K} {bar : Bar K} (h : rest p cost s bar = .ok s')
    (hpos : s.pos ≠ none) : s' = s := by
  rcases rest_ok h with rfl | ⟨hnone, -⟩
  · rfl
  · exact absurd hnone hpos

theorem onBar_effect {bars : List (Bar K)} {s s' : State K} {bar : Bar K} {i : ℕ}
    (hsingle : s.pos ≠ none → s.pending = none) (h : onBar m p cost bars s (bar, i) = .ok s') :
    Effect p s s' bar := by
  obtain ⟨s₁, hexits, h⟩ := bind_eq_ok.mp h
  obtain ⟨s₂, hresolve, h⟩ := bind_eq_ok.mp h
  obtain ⟨sig, -, hrest⟩ := bind_eq_ok.mp h
  have hclear : ∀ {pos}, s.pos = some pos → s.pending = none := fun hpos =>
    hsingle (by rw [hpos]; exact Option.some_ne_none _)
  rcases exits_ok hexits with ⟨hpos, rfl⟩ | ⟨pos, hpos, hyoung, rfl⟩ |
    ⟨pos, trade, hpos, hentry, hexit, hheld, rfl⟩
  · rcases resolve_ok hresolve with ⟨hidle, rfl⟩ | ⟨bid, drift, -, hpending, rfl⟩ |
      ⟨bid, won, -, hpending, rfl⟩
    · have hpending : s.pending = none := hidle.resolve_left fun h => by
        rw [show s.pos = none from hpos] at h
        cases h
      obtain ⟨hpos', hrested⟩ := rested_of_rest hrest hpos hpending
      exact .flat _ (.idle hpos hpending) hpos' hrested
    · obtain rfl := rest_of_pos hrest (Option.some_ne_none _)
      exact .filled bid hpos hpending rfl rfl rfl
    · obtain ⟨hpos', hrested⟩ := rested_of_rest hrest hpos rfl
      exact .flat _ (.missed bid won hpos hpending) hpos' hrested
  · have hpending := hclear hpos
    rcases resolve_ok hresolve with ⟨-, rfl⟩ | ⟨bid, drift, hnone, -⟩ | ⟨bid, won, hnone, -⟩
    · obtain rfl := rest_of_pos hrest (Option.some_ne_none _)
      exact .aged pos hpos hyoung rfl hpending rfl
    · cases hnone
    · cases hnone
  · have hpending := hclear hpos
    rcases resolve_ok hresolve with ⟨-, rfl⟩ | ⟨bid, drift, -, hsome, -⟩ | ⟨bid, won, -, hsome, -⟩
    · obtain ⟨hpos', hrested⟩ := rested_of_rest hrest rfl hpending
      exact .flat _ (.closed pos trade hpos hentry hexit hheld) hpos' hrested
    · rw [show s.pending = some bid from hsome] at hpending
      cases hpending
    · rw [show s.pending = some bid from hsome] at hpending
      cases hpending

/-! ## The invariant -/

structure Held (p : MrScalpParams K) (s : State K) : Prop where
  single : s.pos ≠ none → s.pending = none
  signaled : s.res.nSignaled = s.res.nPlaced + s.res.nCostSkipped
  placed : s.res.nPlaced = s.res.nFilled + s.res.nMissed + s.pending.isSome.toNat
  closed : s.res.trades.length + s.pos.isSome.toNat = s.res.nFilled
  young : ∀ pos, s.pos = some pos → pos.bars < p.maxHoldBars
  holds : ∀ t ∈ s.res.trades, t.barsHeld ≤ p.maxHoldBars

/-- What is true of a result when no order rests and no position is open. -/
structure Settled (p : MrScalpParams K) (res : MrScalpResult K) : Prop where
  signaled : res.nSignaled = res.nPlaced + res.nCostSkipped
  placed : res.nPlaced = res.nFilled + res.nMissed
  closed : res.trades.length = res.nFilled
  holds : ∀ t ∈ res.trades, t.barsHeld ≤ p.maxHoldBars

omit [LinearOrder K] in
theorem Held.cleared {s : State K} {bar : Bar K} {res : MrScalpResult K} (h : Held p s)
    (hcleared : Cleared s bar res) : Settled p res := by
  obtain ⟨hsingle, hsignaled, hplaced, hclosed, hyoung, hholds⟩ := h
  cases hcleared with
  | idle hpos hpending =>
      rw [hpending] at hplaced
      rw [hpos] at hclosed
      exact ⟨hsignaled, hplaced, hclosed, hholds⟩
  | closed pos trade hpos hentry hexit hheld =>
      rw [hsingle (by rw [hpos]; exact Option.some_ne_none _)] at hplaced
      rw [hpos] at hclosed
      refine ⟨hsignaled, hplaced, ?_, ?_⟩
      · rw [List.length_append]
        exact hclosed
      · intro t ht
        rcases List.mem_append.mp ht with ht | ht
        · exact hholds t ht
        · obtain rfl := List.mem_singleton.mp ht
          have := hyoung pos hpos
          omega
  | missed bid won hpos hpending =>
      rw [hpending, Option.isSome_some, Bool.toNat_true] at hplaced
      rw [hpos] at hclosed
      exact ⟨hsignaled, by dsimp only; omega, hclosed, hholds⟩

omit [LinearOrder K] in
theorem Settled.rested {res res' : MrScalpResult K} {pending : Option K} (h : Settled p res)
    (hrested : Rested res pending res') :
    res'.nSignaled = res'.nPlaced + res'.nCostSkipped ∧
      res'.nPlaced = res'.nFilled + res'.nMissed + pending.isSome.toNat ∧
      res'.trades.length = res'.nFilled ∧ ∀ t ∈ res'.trades, t.barsHeld ≤ p.maxHoldBars := by
  obtain ⟨hsignaled, hplaced, hclosed, hholds⟩ := h
  cases hrested with
  | quiet => exact ⟨hsignaled, hplaced, hclosed, hholds⟩
  | placed bid =>
      refine ⟨?_, ?_, hclosed, hholds⟩
      · dsimp only
        omega
      · rw [Option.isSome_some, Bool.toNat_true, hplaced]
  | skipped =>
      refine ⟨?_, hplaced, hclosed, hholds⟩
      dsimp only
      omega

omit [LinearOrder K] in
theorem Held.step {s s' : State K} {bar : Bar K} (hhold : 1 ≤ p.maxHoldBars) (h : Held p s)
    (heffect : Effect p s s' bar) : Held p s' := by
  cases heffect with
  | aged pos hpos hyoung hpos' hpending' hres =>
      have hplaced := h.placed
      have hclosed := h.closed
      rw [h.single (by rw [hpos]; exact Option.some_ne_none _)] at hplaced
      rw [hpos] at hclosed
      refine ⟨fun _ => hpending', ?_, ?_, ?_, ?_, ?_⟩
      · rw [hres]
        exact h.signaled
      · rw [hres, hpending']
        exact hplaced
      · rw [hres, hpos']
        exact hclosed
      · intro pos' h'
        rw [hpos'] at h'
        obtain rfl := Option.some.inj h'
        exact hyoung
      · rw [hres]
        exact h.holds
  | filled bid hpos hpending hpos' hpending' hres =>
      have hplaced := h.placed
      have hclosed := h.closed
      rw [hpending, Option.isSome_some, Bool.toNat_true] at hplaced
      rw [hpos, Option.isSome_none, Bool.toNat_false] at hclosed
      refine ⟨fun _ => hpending', ?_, ?_, ?_, ?_, ?_⟩
      · rw [hres]
        exact h.signaled
      · rw [hres, hpending', Option.isSome_none, Bool.toNat_false]
        dsimp only
        omega
      · rw [hres, hpos', Option.isSome_some, Bool.toNat_true]
        dsimp only
        omega
      · intro pos' h'
        rw [hpos'] at h'
        obtain rfl := Option.some.inj h'
        exact hhold
      · rw [hres]
        exact h.holds
  | flat res hcleared hpos' hrested =>
      obtain ⟨hsignaled, hplaced, hclosed, hholds⟩ := (h.cleared hcleared).rested hrested
      refine ⟨fun hne => absurd hpos' hne, hsignaled, hplaced, ?_, ?_, hholds⟩
      · rw [hpos']
        exact hclosed
      · intro pos' h'
        rw [hpos'] at h'
        cases h'

/-! ## A run, bar by bar -/

/-- The states of a run that does not raise on its first `n` bars. -/
structure Traced (m : Maths K) (p : MrScalpParams K) (cost : CostModel K) (bars : List (Bar K))
    (sig : MrScalpSignal K) (n : ℕ) (states : ℕ → State K) : Prop where
  state : ∀ k ≤ n, stateAfter m p cost bars sig k = .ok (states k)
  within : n ≤ bars.length
  hold : 1 ≤ p.maxHoldBars

/-- Bar `k` fills the order that rests. -/
def FillsOn (states : ℕ → State K) (k : ℕ) : Prop :=
  (states (k + 1)).res.nFilled = (states k).res.nFilled + 1

/-- Bar `k` signals and rests an order. -/
def PlacesOn (states : ℕ → State K) (k : ℕ) : Prop :=
  (states (k + 1)).res.nSignaled = (states k).res.nSignaled + 1 ∧
    (states (k + 1)).res.nPlaced = (states k).res.nPlaced + 1

/-- Bar `k` closes this trade. -/
def ClosesOn (states : ℕ → State K) (k : ℕ) (t : Trade K) : Prop :=
  (states (k + 1)).res.trades = (states k).res.trades ++ [t]

/-- A trade was filled on one bar and closed on a later one, as many bars on as it says. -/
def Spans (bars : List (Bar K)) (states : ℕ → State K) (k : ℕ) (t : Trade K) : Prop :=
  ∃ j i : ℕ, j < i ∧ i < k ∧ t.barsHeld = i - j ∧ FillsOn states j ∧ ClosesOn states i t ∧
    bars[j]?.map (·.ts) = some t.entryTs ∧ bars[i]?.map (·.ts) = some t.exitTs

namespace Traced

variable {bars : List (Bar K)} {sig : MrScalpSignal K} {n : ℕ} {states : ℕ → State K}
  (h : Traced m p cost bars sig n states)
include h

theorem start : states 0 = { sig, res := { postFillDrift := 0 } } :=
  (Except.ok.inj (h.state 0 (Nat.zero_le n))).symm

theorem onBar {k : ℕ} (hk : k < n) : ∃ bar, bars[k]? = some bar ∧
    MrScalp.onBar m p cost bars (states k) (bar, k) = .ok (states (k + 1)) := by
  have hlt : k < bars.length := hk.trans_le h.within
  obtain ⟨s, hs, hstep⟩ := after_succ_ok (getElem?_enumerate hlt) (h.state (k + 1) hk)
  obtain rfl := Except.ok.inj ((h.state k hk.le).symm.trans hs)
  exact ⟨bars[k], List.getElem?_eq_getElem hlt, hstep⟩

theorem held {k : ℕ} (hk : k ≤ n) : Held p (states k) := by
  induction k with
  | zero =>
      rw [h.start]
      exact ⟨fun _ => rfl, rfl, rfl, rfl, fun _ hpos => (by cases hpos), fun _ ht => (by cases ht)⟩
  | succ k ih =>
      have hheld := ih (Nat.le_of_succ_le hk)
      obtain ⟨bar, -, hbar⟩ := h.onBar hk
      exact hheld.step h.hold (onBar_effect hheld.single hbar)

theorem effect {k : ℕ} (hk : k < n) :
    ∃ bar, bars[k]? = some bar ∧ Effect p (states k) (states (k + 1)) bar := by
  obtain ⟨bar, hget, hbar⟩ := h.onBar hk
  exact ⟨bar, hget, onBar_effect (h.held hk.le).single hbar⟩

/-- An order that rests after a bar was placed on it. -/
theorem placed_of_pending {k : ℕ} (hk : k ≤ n) {bid : K}
    (hpending : (states k).pending = some bid) : ∃ j, k = j + 1 ∧ PlacesOn states j := by
  cases k with
  | zero =>
      rw [h.start] at hpending
      cases hpending
  | succ j =>
      refine ⟨j, rfl, ?_⟩
      obtain ⟨bar, -, heffect⟩ := h.effect hk
      cases heffect with
      | aged pos hpos hyoung hpos' hpending' hres =>
          rw [hpending'] at hpending
          cases hpending
      | filled bid' hpos hbid hpos' hpending' hres =>
          rw [hpending'] at hpending
          cases hpending
      | flat res hcleared hpos' hrested =>
          rw [hpending] at hrested
          unfold PlacesOn
          generalize (states (j + 1)).res = res' at hrested
          cases hrested with
          | placed bid' =>
              cases hcleared with
              | idle hpos hpending => exact ⟨rfl, rfl⟩
              | closed pos trade hpos hentry hexit hheld => exact ⟨rfl, rfl⟩
              | missed bid won hpos hpending => exact ⟨rfl, rfl⟩

/-- The position after `k` bars was filled on the bar that its age says. -/
theorem filled_of_pos {k : ℕ} (hk : k ≤ n) {pos : Position K}
    (hpos : (states k).pos = some pos) :
    ∃ j < k, pos.bars = k - 1 - j ∧ FillsOn states j ∧ bars[j]?.map (·.ts) = some pos.ts := by
  induction k generalizing pos with
  | zero =>
      rw [h.start] at hpos
      cases hpos
  | succ k ih =>
      obtain ⟨bar, hbar, heffect⟩ := h.effect hk
      cases heffect with
      | aged pos' hpos₀ hyoung hpos' hpending' hres =>
          obtain ⟨j, hj, hage, hfills, hts⟩ := ih (Nat.le_of_succ_le hk) hpos₀
          rw [hpos'] at hpos
          obtain rfl := Option.some.inj hpos
          refine ⟨j, Nat.lt_succ_of_lt hj, ?_, hfills, hts⟩
          dsimp only
          push_cast
          omega
      | filled bid hpos₀ hbid hpos' hpending' hres =>
          rw [hpos'] at hpos
          obtain rfl := Option.some.inj hpos
          refine ⟨k, Nat.lt_succ_self k, ?_, ?_, ?_⟩
          · dsimp only
            push_cast
            omega
          · unfold FillsOn
            rw [hres]
          · rw [hbar]
            rfl
      | flat res hcleared hpos' hrested =>
          rw [hpos'] at hpos
          cases hpos

/-- A fill is on the bar after the one that rested the order, at its bid. -/
theorem placed_of_fills {k : ℕ} (hk : k < n) (hfills : FillsOn states k) :
    ∃ j bid ts, k = j + 1 ∧ PlacesOn states j ∧ (states k).pending = some bid ∧
      bars[k]?.map (·.ts) = some ts ∧ (states (k + 1)).pos = some ⟨ts, bid, 0⟩ := by
  unfold FillsOn at hfills
  obtain ⟨bar, hbar, heffect⟩ := h.effect hk
  cases heffect with
  | aged pos hpos hyoung hpos' hpending' hres =>
      rw [hres] at hfills
      dsimp only at hfills
      omega
  | filled bid hpos hbid hpos' hpending' hres =>
      obtain ⟨j, hj, hplaces⟩ := h.placed_of_pending hk.le hbid
      exact ⟨j, bid, bar.ts, hj, hplaces, hbid, by rw [hbar]; rfl, hpos'⟩
  | flat res hcleared hpos' hrested =>
      rw [hrested.kept.1, hcleared.nFilled] at hfills
      omega

/-- A bar adds no trade, or closes the position. -/
theorem trades_step {k : ℕ} (hk : k < n) :
    (states (k + 1)).res.trades = (states k).res.trades ∨
      ∃ pos trade, (states k).pos = some pos ∧ trade.entryTs = pos.ts ∧
        bars[k]?.map (·.ts) = some trade.exitTs ∧ trade.barsHeld = pos.bars + 1 ∧
        ClosesOn states k trade := by
  obtain ⟨bar, hbar, heffect⟩ := h.effect hk
  cases heffect with
  | aged pos hpos hyoung hpos' hpending' hres =>
      left
      rw [hres]
  | filled bid hpos hbid hpos' hpending' hres =>
      left
      rw [hres]
  | flat res hcleared hpos' hrested =>
      unfold ClosesOn
      rw [hrested.kept.2]
      cases hcleared with
      | idle hpos hpending => exact Or.inl rfl
      | closed pos trade hpos hentry hexit hheld =>
          refine Or.inr ⟨pos, trade, hpos, hentry, ?_, hheld, rfl⟩
          rw [hbar, Option.map_some, hexit]
      | missed bid won hpos hpending => exact Or.inl rfl

/-- Trades are never taken back. -/
theorem trades_prefix {i k : ℕ} (hik : i ≤ k) (hk : k ≤ n) :
    (states i).res.trades <+: (states k).res.trades := by
  induction k, hik using Nat.le_induction with
  | base => exact List.prefix_rfl
  | succ k hik ih =>
      refine (ih (Nat.le_of_succ_le hk)).trans ?_
      rcases h.trades_step hk with hsame | ⟨pos, trade, -, -, -, -, hcloses⟩
      · exact hsame ▸ List.prefix_rfl
      · exact hcloses ▸ List.prefix_append _ _

theorem spans {k : ℕ} (hk : k ≤ n) {t : Trade K} (ht : t ∈ (states k).res.trades) :
    Spans bars states k t := by
  induction k with
  | zero =>
      rw [h.start] at ht
      cases ht
  | succ k ih =>
      have hearlier : t ∈ (states k).res.trades → Spans bars states (k + 1) t := by
        intro ht
        obtain ⟨j, i, hji, hik, hspan⟩ := ih (Nat.le_of_succ_le hk) ht
        exact ⟨j, i, hji, Nat.lt_succ_of_lt hik, hspan⟩
      rcases h.trades_step hk with hsame | ⟨pos, trade, hpos, hentry, hexit, hheld, hcloses⟩
      · rw [hsame] at ht
        exact hearlier ht
      · rw [hcloses] at ht
        rcases List.mem_append.mp ht with ht | ht
        · exact hearlier ht
        · obtain rfl := List.mem_singleton.mp ht
          obtain ⟨j, hj, hage, hfills, hts⟩ := h.filled_of_pos (Nat.le_of_succ_le hk) hpos
          refine ⟨j, k, hj, Nat.lt_succ_self k, by omega, hfills, hcloses, ?_, hexit⟩
          rw [hts, hentry]

end Traced

/-! ## The future is read for statistics only -/

/-- A state without its statistics on the future. -/
def core (s : State K) : State K := { s with drifts := [], res.missedWinners := 0 }

theorem exits_core (s : State K) (bar : Bar K) :
    (exits p cost (core s) bar).map core = (exits p cost s bar).map core := by
  obtain ⟨sig, pending, pos, drifts, res⟩ := s
  cases pos with
  | none => rfl
  | some pos =>
      unfold exits core
      dsimp only
      cases exitOf p cost { pos with bars := pos.bars + 1 } sig.ind bar with
      | none => rfl
      | some exit =>
          refine map_bind_congr fun gross => ?_
          refine map_bind_congr fun ratio => ?_
          rfl

theorem rest_core (s : State K) (bar : Bar K) :
    (rest p cost (core s) bar).map core = (rest p cost s bar).map core := by
  obtain ⟨sig, pending, pos, drifts, res⟩ := s
  unfold rest core
  dsimp only
  split
  · split
    · refine map_bind_congr fun snapback => ?_
      by_cases hworth : cost.roundTripEstimate + p.margin < snapback
      · rw [if_pos hworth, if_pos hworth]
        rfl
      · rw [if_neg hworth, if_neg hworth]
        rfl
    · rfl
  · rfl

omit [LinearOrder K] in
/-- The bar whose close tells the drift of a fill is one of the list. -/
theorem index_hold {bars : List (Bar K)} {i : ℕ} (hhold : 1 ≤ p.maxHoldBars)
    (hi : i < bars.length) :
    ∃ last, index bars (min (i + p.maxHoldBars) ((bars.length : ℤ) - 1)) = .ok last := by
  obtain ⟨k, hk⟩ : ∃ k : ℕ, min (i + p.maxHoldBars) ((bars.length : ℤ) - 1) = k :=
    Int.eq_ofNat_of_zero_le (by omega)
  have hlt : k < bars.length := by omega
  exact ⟨bars[k], by rw [hk, index_natCast, List.getElem?_eq_getElem hlt]⟩

/-- Whatever bars are to come, the same comes of an order. -/
theorem resolve_core (hhold : 1 ≤ p.maxHoldBars) {bars bars' : List (Bar K)} {i : ℕ}
    (hi : i < bars.length) (hi' : i < bars'.length) (s : State K) (bar : Bar K) :
    (resolve p bars i (core s) bar).map core = (resolve p bars' i s bar).map core := by
  obtain ⟨sig, pending, pos, drifts, res⟩ := s
  cases pos with
  | some pos => rfl
  | none =>
      cases pending with
      | none => rfl
      | some bid =>
          unfold resolve core
          dsimp only
          split
          · obtain ⟨last, hlast⟩ := index_hold hhold hi
            obtain ⟨last', hlast'⟩ := index_hold hhold hi'
            rw [hlast, hlast']
            show Except.map _ (divide (last.c - bid) bid >>= _) =
              Except.map _ (divide (last'.c - bid) bid >>= _)
            unfold divide
            split
            · rfl
            · rfl
          · rfl

theorem onBar_core (hhold : 1 ≤ p.maxHoldBars) {bars bars' : List (Bar K)} {i : ℕ}
    (hi : i < bars.length) (hi' : i < bars'.length) {s₁ s₂ : State K} (h : core s₁ = core s₂)
    (bar : Bar K) :
    (onBar m p cost bars s₁ (bar, i)).map core = (onBar m p cost bars' s₂ (bar, i)).map core := by
  have hexits : (exits p cost { s₁ with res.nBars := s₁.res.nBars + 1 } bar).map core =
      (exits p cost { s₂ with res.nBars := s₂.res.nBars + 1 } bar).map core := by
    rw [← exits_core, ← exits_core { s₂ with res.nBars := s₂.res.nBars + 1 }]
    exact congrArg (fun s : State K =>
      (exits p cost { s with res.nBars := s.res.nBars + 1 } bar).map core) h
  have hresolve : ∀ t₁ t₂, core t₁ = core t₂ →
      (resolve p bars i t₁ bar).map core = (resolve p bars' i t₂ bar).map core := by
    intro t₁ t₂ ht
    rw [← resolve_core hhold hi' hi, ht, resolve_core hhold hi' hi']
  have hrest : ∀ u₁ u₂, core u₁ = core u₂ → ∀ sig,
      (rest p cost { u₁ with sig } bar).map core = (rest p cost { u₂ with sig } bar).map core := by
    intro u₁ u₂ hu sig
    rw [← rest_core, ← rest_core { u₂ with sig }]
    exact congrArg (fun s : State K => (rest p cost { s with sig } bar).map core) hu
  refine bind_map_congr hexits fun t₁ t₂ ht => bind_map_congr (hresolve t₁ t₂ ht) fun u₁ u₂ hu => ?_
  have hsig := congrArg State.sig hu
  dsimp only
  rw [show u₁.sig = u₂.sig from hsig]
  exact map_bind_congr (hrest u₁ u₂ hu)

/-- Runs on lists that agree up to a bar agree after it, up to statistics on the future. -/
theorem stateAfter_core (hhold : 1 ≤ p.maxHoldBars) {bars bars' : List (Bar K)} {t : ℕ}
    (ht : t < bars.length) (hagree : bars'.take (t + 1) = bars.take (t + 1))
    (sig : MrScalpSignal K) :
    (stateAfter m p cost bars' sig (t + 1)).map core =
      (stateAfter m p cost bars sig (t + 1)).map core := by
  have ht' : t < bars'.length := by
    have hlength := congrArg List.length hagree
    rw [List.length_take, List.length_take] at hlength
    omega
  have hstep : ∀ j < t + 1, ∀ a b, bars'.zipIdx[j]? = some a → bars.zipIdx[j]? = some b →
      ∀ s₁ s₂, core s₁ = core s₂ →
        (onBar m p cost bars' s₁ a).map core = (onBar m p cost bars s₂ b).map core := by
    intro j hj a b ha hb s₁ s₂ h
    have hbar : bars[j]? = some bars[j] := List.getElem?_eq_getElem (by omega)
    rw [List.getElem?_zipIdx, getElem?_congr hagree hj, hbar] at ha
    rw [List.getElem?_zipIdx, hbar] at hb
    obtain rfl := Option.some.inj ha
    obtain rfl := Option.some.inj hb
    rw [zero_add]
    exact onBar_core hhold (by omega) (by omega) h _
  exact after_congr rfl (by rwa [List.length_zipIdx]) (by rwa [List.length_zipIdx]) hstep

/-! ## The life of an order and of a trade -/

/-- What the loop has done by the end of bar `n - 1`. -/
structure Lifecycle (m : Maths K) (p : MrScalpParams K) (cost : CostModel K) (bars : List (Bar K))
    (sig : MrScalpSignal K) (n : ℕ) (states : ℕ → State K) : Prop where
  single : ∀ k ≤ n, (states k).pos ≠ none → (states k).pending = none
  fills : ∀ k < n, FillsOn states k → ∃ j bid ts, k = j + 1 ∧ PlacesOn states j ∧
    (states k).pending = some bid ∧ bars[k]?.map (·.ts) = some ts ∧
    (states (k + 1)).pos = some ⟨ts, bid, 0⟩
  spans : ∀ t ∈ (states n).res.trades, Spans bars states n t
  signaled : (states n).res.nSignaled = (states n).res.nPlaced + (states n).res.nCostSkipped
  placed : (states n).res.nPlaced =
    (states n).res.nFilled + (states n).res.nMissed + (states n).pending.isSome.toNat
  closed : (states n).res.trades.length + (states n).pos.isSome.toNat = (states n).res.nFilled
  holds : ∀ t ∈ (states n).res.trades, t.barsHeld ≤ p.maxHoldBars
  /-- What the bars so far are decides the trades so far, and they stay. -/
  causal : ∀ t < n, ∀ bars' : List (Bar K), bars'.take (t + 1) = bars.take (t + 1) →
    (stateAfter m p cost bars' sig (t + 1)).map (·.res.trades) = .ok (states (t + 1)).res.trades
  kept : ∀ k ≤ n, (states k).res.trades <+: (states n).res.trades

theorem Traced.life {bars : List (Bar K)} {sig : MrScalpSignal K} {n : ℕ}
    {states : ℕ → State K} (h : Traced m p cost bars sig n states) :
    Lifecycle m p cost bars sig n states where
  single k hk := (h.held hk).single
  fills k hk hfills := h.placed_of_fills hk hfills
  spans t ht := h.spans le_rfl ht
  signaled := (h.held le_rfl).signaled
  placed := (h.held le_rfl).placed
  closed := (h.held le_rfl).closed
  holds := (h.held le_rfl).holds
  kept k hk := h.trades_prefix hk le_rfl
  causal t ht bars' hagree := by
    have hcore : (stateAfter m p cost bars' sig (t + 1)).map core =
        (stateAfter m p cost bars sig (t + 1)).map core :=
      stateAfter_core h.hold (ht.trans_le h.within) hagree sig
    rw [h.state (t + 1) ht] at hcore
    cases hrun : stateAfter m p cost bars' sig (t + 1) with
    | error e =>
        rw [hrun] at hcore
        cases hcore
    | ok s =>
        rw [hrun] at hcore
        have htrades := congrArg (fun s : State K => s.res.trades) (Except.ok.inj hcore)
        exact congrArg Except.ok htrades

/-- What a run returns is what the loop did on all bars; and what the loop did on so many bars,
whether or not it raises later, is a lifecycle. -/
theorem lifecycle (hhold : 1 ≤ p.maxHoldBars) {bars : List (Bar K)} {sig : MrScalpSignal K}
    (hnew : MrScalpSignal.new p = .ok sig) :
    (∀ res, backtestMrScalp m p cost bars = .ok res → ∃ s drift,
      stateAfter m p cost bars sig bars.length = .ok s ∧
        res = { s.res with postFillDrift := drift }) ∧
      ∀ n ≤ bars.length, ∀ s, stateAfter m p cost bars sig n = .ok s → ∃ states,
        (∀ k ≤ n, stateAfter m p cost bars sig k = .ok (states k)) ∧ states n = s ∧
          Lifecycle m p cost bars sig n states := by
  refine ⟨fun res h => ?_, fun n hn s h => ?_⟩
  · obtain ⟨sig', hsig', h⟩ := bind_eq_ok.mp h
    obtain rfl := Except.ok.inj (hnew.symm.trans hsig')
    obtain ⟨s, hs, hres⟩ := bind_eq_ok.mp h
    refine ⟨s, _, ?_, (Except.ok.inj hres).symm⟩
    rw [← after_length, List.length_zipIdx] at hs
    exact hs
  · have hruns : ∀ k, ∃ s', k ≤ n → stateAfter m p cost bars sig k = .ok s' := by
      intro k
      by_cases hk : k ≤ n
      · obtain ⟨s', hs'⟩ := exists_after_of_le h hk
        exact ⟨s', fun _ => hs'⟩
      · exact ⟨s, fun h => absurd h hk⟩
    choose states hstates using hruns
    have htraced : Traced m p cost bars sig n states := ⟨hstates, hn, hhold⟩
    have hlast : states n = s := Except.ok.inj ((hstates n le_rfl).symm.trans h)
    exact ⟨states, hstates, hlast, htraced.life⟩

/-- Indicators are ready on the second bar, and the order that it rests is filled on the third. -/
def dip : List (Bar ℚ) :=
  [⟨11, 10, 10, 1, 0⟩, ⟨14, 11, 11, 1, 1⟩, ⟨12, 10, 11, 1, 2⟩, ⟨12, 11, 12, 1, 3⟩]

def quick : MrScalpParams ℚ :=
  { emaPeriod := 3, window := 1, rsiPeriod := 1, zEnter := 0, rsiEnter := 100, maxSpreadIn := 1,
    minReturn30m := -1, atrFast := 1, atrSlow := 1, atrRatioMax := 10, tpNet := 25 / 10 ^ 4
    sl := -18 / 10 ^ 4, zExit := -1 / 2, maxHoldBars := 2, margin := 0 }

theorem lifecycle_dip : ∃ sig s states, MrScalpSignal.new quick = .ok sig ∧
    stateAfter Maths.decimal quick {} dip sig 4 = .ok s ∧ s.res.trades.length = 1 ∧
      states 4 = s ∧ Lifecycle Maths.decimal quick {} dip sig 4 states := by
  let sig : MrScalpSignal ℚ := { a := 1 / 2, avgGain := 0, avgLoss := 0 }
  have hnew : MrScalpSignal.new quick = .ok sig := by decide +kernel
  have htrades : (stateAfter Maths.decimal quick {} dip sig 4).map (·.res.trades.length) = .ok 1 :=
    by decide +kernel
  cases hs : stateAfter Maths.decimal quick {} dip sig 4 with
  | error e =>
      rw [hs] at htrades
      cases htrades
  | ok s =>
      rw [hs] at htrades
      obtain ⟨states, -, hlast, hlife⟩ := (lifecycle (by decide) hnew).2 4 (by decide) s hs
      exact ⟨sig, s, states, hnew, hs, Except.ok.inj htrades, hlast, hlife⟩

end MrScalp

end TreasuryForge

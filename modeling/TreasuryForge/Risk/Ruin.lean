/-
# `Risk.Ruin` — Monte-Carlo risk of ruin on block-bootstrapped paths

The simulation, the growth and the Kelly leverage of `risk/ruin.py` over exact fractions.  The
generator is a parameter, and the draws of a path have fuel: blocks of at least one step never
need more of it than the path has steps (`monteCarloRuin_returns`).  A path falls as deep as its
growth factors do (`walk_eq`).
-/
import TreasuryForge.Backtest.Metrics
import TreasuryForge.Base.Dict
import TreasuryForge.Base.Loop

namespace TreasuryForge

namespace Risk

open Backtest Drawdown

/-- `random.Random` -/
structure Rng where
  State : Type
  seed : ℤ → State
  randint : State → ℤ → ℤ → ℤ × State
  random : State → ℚ × State
  randint_mem : ∀ (s : State) (lo hi : ℤ), lo ≤ hi →
    lo ≤ (randint s lo hi).1 ∧ (randint s lo hi).1 ≤ hi

/-- A generator that draws the lowest number. -/
def Rng.lowest : Rng where
  State := Unit
  seed _ := ()
  randint _ lo _ := (lo, ())
  random _ := (0, ())
  randint_mem _ _ _ h := ⟨le_rfl, h⟩

/-- How a call ends without a result: by an exception, or not within the fuel. -/
inductive Stop where
  | raised (error : String)
  | unfinished
  deriving DecidableEq, Repr

structure RuinParams where
  leverage : ℚ := 1
  nSteps : Option ℤ := none
  paths : ℤ := 10000
  ruinDrawdown : ℚ := 50 / 100
  blockLen : ℤ := 10
  adverseShift : ℚ := 0
  tailShockProb : ℚ := 0
  tailShockMult : ℚ := 3
  ddThresholds : List ℚ := [20 / 100, 30 / 100, 50 / 100]
  seed : ℤ := 0

structure MonteCarloRuinResult where
  pRuin : ℚ
  pLiquidation : ℚ
  expectedMaxDrawdown : ℚ
  medianFinalMultiple : ℚ
  ddThresholdProbs : Dict ℚ ℚ

/-- `n_steps or len(rets)` -/
def RuinParams.steps (c : RuinParams) (rets : List ℚ) : ℤ :=
  match c.nSteps with
  | none => rets.length
  | some n => if n = 0 then rets.length else n

section Bootstrap

variable (rng : Rng) (rets : List ℚ)

/-- The length of the blocks in use. -/
def blockSize (blockLen : ℤ) : ℤ :=
  if (rets.length : ℤ) ≤ blockLen then max 1 (rets.length / 2 : ℕ) else blockLen

/-- `while len(out) < n`, with fuel for the draws. -/
def drawBlocks (n blockLen : ℤ) : ℕ → List ℚ → rng.State → Except Stop (List ℚ × rng.State)
  | fuel, out, s =>
      if n ≤ out.length then .ok (out, s)
      else
        match fuel with
        | 0 => .error .unfinished
        | fuel + 1 =>
            let hi := rets.length - blockLen
            if hi < 0 then .error (.raised "ValueError: empty range for randrange()")
            else
              let (start, s) := rng.randint s 0 hi
              drawBlocks n blockLen fuel (out ++ Loop.slice rets start (start + blockLen)) s

def blockBootstrap (n blockLen : ℤ) (fuel : ℕ) (s : rng.State) :
    Except Stop (List ℚ × rng.State) := do
  let (out, s) ← drawBlocks rng rets n (blockSize rets blockLen) fuel [] s
  return (out.take n.toNat, s)

end Bootstrap

/-! ## One path -/

structure Path where
  cap : ℚ := 1
  peak : ℚ := 1
  mdd : ℚ := 0
  liquidated : Bool := false
  deriving Repr

section Walk

variable (rng : Rng) (c : RuinParams)

/-- The return of a step, shocked or not. -/
def effective (r : ℚ) (s : rng.State) : ℚ × rng.State :=
  let rEff := r - c.adverseShift
  if c.tailShockProb = 0 then (rEff, s)
  else
    let (u, s) := rng.random s
    (if u < c.tailShockProb then -|rEff| * c.tailShockMult else rEff, s)

def walk (p : Path) : List ℚ → rng.State → Path × rng.State
  | [], s => (p, s)
  | r :: path, s =>
      let (rEff, s) := effective rng c r s
      let cap := p.cap * (1 + c.leverage * rEff)
      if cap ≤ 0 then ({ p with cap := 0, mdd := 1, liquidated := true }, s)
      else
        let peak := if p.peak < cap then cap else p.peak
        let dd := 1 - cap / peak
        walk { p with cap := cap, peak := peak, mdd := if p.mdd < dd then dd else p.mdd } path s

end Walk

/-! ## The tally -/

structure Tally where
  ruin : ℕ := 0
  liq : ℕ := 0
  dds : List ℚ := []
  finals : List ℚ := []
  thrHits : Dict ℚ ℕ

/-- What one path adds to the counts. -/
def Tally.record (c : RuinParams) (t : Tally) (p : Path) : Tally where
  ruin := if c.ruinDrawdown ≤ p.mdd then t.ruin + 1 else t.ruin
  liq := if p.liquidated then t.liq + 1 else t.liq
  dds := t.dds ++ [p.mdd]
  finals := t.finals ++ [p.cap]
  thrHits := c.ddThresholds.foldl
    (fun hits thr => if thr ≤ p.mdd then hits.set thr (hits.getD thr 0 + 1) else hits) t.thrHits

def Tally.start (c : RuinParams) : Tally where
  thrHits := .tabulate (fun _ => 0) c.ddThresholds

/-- What the counts come to. -/
def Tally.result (c : RuinParams) (t : Tally) : Except Stop MonteCarloRuinResult :=
  if c.paths = 0 then .error (.raised "ZeroDivisionError: division by zero")
  else if c.paths < 0 then .error (.raised "IndexError: list index out of range")
  else
    .ok {
      pRuin := t.ruin / c.paths
      pLiquidation := t.liq / c.paths
      expectedMaxDrawdown := t.dds.sum / c.paths
      medianFinalMultiple := (t.finals.mergeSort (· ≤ ·)).getD (c.paths.toNat / 2) 0
      ddThresholdProbs := .tabulate (fun thr => t.thrHits.getD thr 0 / c.paths) c.ddThresholds }

section Run

variable (rng : Rng) (rets : List ℚ) (c : RuinParams) (fuel : ℕ)

/-- `for _ in range(paths)` -/
def runPaths : ℕ → Tally → rng.State → Except Stop Tally
  | 0, t, _ => .ok t
  | k + 1, t, s => do
      let (path, s) ← blockBootstrap rng rets (c.steps rets) c.blockLen fuel s
      let (p, s) := walk rng c {} path s
      runPaths k (t.record c p) s

/-- The simulation; each path may draw `fuel` blocks. -/
def monteCarloRuin : Except Stop MonteCarloRuinResult := do
  let t ← runPaths rng rets c fuel c.paths.toNat (.start c) (rng.seed c.seed)
  t.result c

end Run

/-! ## Growth -/

/-- `_moments`: the mean and the variance. -/
def meanVar (returns : List ℚ) : Except Stop (ℚ × ℚ) :=
  if returns = [] then .error (.raised "ZeroDivisionError: division by zero")
  else
    let mean := returns.sum / returns.length
    .ok (mean, centralMoment returns mean 2)

/-- Mean growth of the logarithm; `none` is `-inf`, of a step that liquidates. -/
def geometricGrowth (m : Maths ℚ) (returns : List ℚ) (leverage : ℚ) : Except Stop (Option ℚ) :=
  let xs := returns.map fun r => 1 + leverage * r
  if xs.any (· ≤ 0) then .ok none
  else if returns = [] then .error (.raised "ZeroDivisionError: division by zero")
  else .ok (some ((xs.map m.log).sum / returns.length))

def kellyLeverage (returns : List ℚ) : Except Stop ℚ := do
  let (mean, var) ← meanVar returns
  return if 0 < var then mean / var else 0

/-! ## A path falls as deep as its factors -/

/-- What the steps of a path multiply the capital by. -/
def RuinParams.factors (c : RuinParams) (path : List ℚ) : List ℚ :=
  path.map fun r => 1 + c.leverage * (r - c.adverseShift)

/-- What holds of a path still running. -/
structure Path.Running (p : Path) : Prop where
  cap : 0 < p.cap
  peak : 0 < p.peak
  mdd : 0 ≤ p.mdd
  mdd_le : p.mdd ≤ 1

theorem Path.Running.start : Path.Running {} := ⟨zero_lt_one, zero_lt_one, le_rfl, zero_le_one⟩

theorem effective_of_noShocks {rng : Rng} {c : RuinParams} (h : c.tailShockProb = 0) (r : ℚ)
    (s : rng.State) : effective rng c r s = (r - c.adverseShift, s) := if_pos h

/-- The path after a step that leaves some capital. -/
def Path.on (p : Path) (f : ℚ) : Path :=
  { p with
    cap := p.cap * f, peak := max p.peak (p.cap * f)
    mdd := max p.mdd (1 - min 1 (p.cap / p.peak * f)) }

theorem Path.Running.on {p : Path} (hp : p.Running) {f : ℚ} (hf : 0 < f) : (p.on f).Running where
  cap := mul_pos hp.cap hf
  peak := lt_max_of_lt_left hp.peak
  mdd := le_max_of_le_left hp.mdd
  mdd_le := by
    have hlevel : 0 ≤ min 1 (p.cap / p.peak * f) :=
      le_min zero_le_one (mul_nonneg (div_nonneg hp.cap.le hp.peak.le) hf.le)
    exact max_le hp.mdd_le (by linarith)

section NoShocks

variable {rng : Rng} {c : RuinParams} (h : c.tailShockProb = 0)
include h

/-- A step that wipes the capital ends the path. -/
theorem walk_wiped {p : Path} (hp : p.Running) {r : ℚ}
    (hr : 1 + c.leverage * (r - c.adverseShift) ≤ 0) (path : List ℚ) (s : rng.State) :
    walk rng c p (r :: path) s = ({ p with cap := 0, mdd := 1, liquidated := true }, s) := by
  rw [walk, effective_of_noShocks h]
  exact if_pos (mul_nonpos_of_nonneg_of_nonpos hp.cap.le hr)

theorem walk_on {p : Path} (hp : p.Running) {r : ℚ}
    (hr : 0 < 1 + c.leverage * (r - c.adverseShift)) (path : List ℚ) (s : rng.State) :
    walk rng c p (r :: path) s =
      walk rng c (p.on (1 + c.leverage * (r - c.adverseShift))) path s := by
  rw [walk, effective_of_noShocks h]
  dsimp only
  rw [if_neg (not_le.mpr (mul_pos hp.cap hr)), ← max_def_lt, level_step hp.peak, ← max_def_lt]
  rfl

theorem walk_eq {p : Path} (hp : p.Running) (path : List ℚ) (s : rng.State) :
    (walk rng c p path s).2 = s ∧
      (walk rng c p path s).1.mdd = max p.mdd (fall (p.cap / p.peak) (c.factors path)) ∧
      ((walk rng c p path s).1.liquidated = true ↔
        p.liquidated = true ∨ ∃ f ∈ c.factors path, f ≤ 0) := by
  induction path generalizing p with
  | nil =>
      refine ⟨rfl, (max_eq_left hp.mdd).symm, ?_⟩
      exact (or_iff_left fun ⟨_, hf, _⟩ => List.not_mem_nil hf).symm
  | cons r path ih =>
      have hfactors : c.factors (r :: path) =
          (1 + c.leverage * (r - c.adverseShift)) :: c.factors path := rfl
      rw [hfactors, List.exists_mem_cons_iff]
      rcases le_or_gt (1 + c.leverage * (r - c.adverseShift)) 0 with hruin | hpos
      · rw [walk_wiped h hp hruin, fall_ruin _ _ hruin]
        exact ⟨rfl, (max_eq_right hp.mdd_le).symm, iff_of_true rfl (Or.inr (Or.inl hruin))⟩
      · obtain ⟨hs, hmdd, hliq⟩ := ih (hp.on hpos)
        rw [walk_on h hp hpos]
        refine ⟨hs, ?_, ?_⟩
        · rw [hmdd, Path.on]
          dsimp only
          rw [level_step hp.peak, fall_cons _ _ hpos, max_assoc]
        · rw [hliq, or_iff_right (not_le.mpr hpos)]
          rfl

end NoShocks

/-! ## The simulation returns -/

theorem blockSize_mem {rets : List ℚ} (hne : rets ≠ []) {blockLen : ℤ} (h : 1 ≤ blockLen) :
    1 ≤ blockSize rets blockLen ∧ blockSize rets blockLen ≤ rets.length := by
  have hlen : 0 < rets.length := List.length_pos_iff.mpr hne
  unfold blockSize
  split
  · omega
  · omega

theorem length_slice {rets : List ℚ} {start blockLen : ℤ} (hstart : 0 ≤ start)
    (hblock : 0 ≤ blockLen) (hle : start + blockLen ≤ rets.length) :
    ((Loop.slice rets start (start + blockLen)).length : ℤ) = blockLen := by
  rw [Loop.slice_of_nonneg hstart (by omega), List.length_drop, List.length_take]
  omega

/-- Blocks are not empty: each draw brings the path nearer to its length. -/
theorem drawBlocks_returns (rng : Rng) {rets : List ℚ} {n blockLen : ℤ} (h : 1 ≤ blockLen)
    (hle : blockLen ≤ rets.length) {fuel : ℕ} {out : List ℚ} (hfuel : n ≤ out.length + fuel)
    (s : rng.State) : ∃ r, drawBlocks rng rets n blockLen fuel out s = .ok r := by
  induction fuel generalizing out s with
  | zero =>
      unfold drawBlocks
      rw [if_pos (by omega)]
      exact ⟨_, rfl⟩
  | succ fuel ih =>
      unfold drawBlocks
      split
      · exact ⟨_, rfl⟩
      · dsimp only
        rw [if_neg (by omega)]
        obtain ⟨hlo, hhi⟩ := rng.randint_mem s 0 (rets.length - blockLen) (by omega)
        have hslice := length_slice hlo (by omega : 0 ≤ blockLen)
          (by omega : (rng.randint s 0 (rets.length - blockLen)).1 + blockLen ≤ rets.length)
        have hnext : n ≤ ((out ++ Loop.slice rets (rng.randint s 0 (rets.length - blockLen)).1
            ((rng.randint s 0 (rets.length - blockLen)).1 + blockLen)).length : ℤ) + fuel := by
          rw [List.length_append]
          push_cast
          omega
        exact ih hnext _

theorem runPaths_returns (rng : Rng) {rets : List ℚ} (hne : rets ≠ []) {c : RuinParams}
    (h : 1 ≤ c.blockLen) {fuel : ℕ} (hfuel : c.steps rets ≤ fuel) (k : ℕ) (t : Tally)
    (s : rng.State) : ∃ t', runPaths rng rets c fuel k t s = .ok t' := by
  induction k generalizing t s with
  | zero => exact ⟨t, rfl⟩
  | succ k ih =>
      obtain ⟨hone, hlen⟩ := blockSize_mem hne h
      have hfuel' : c.steps rets ≤ ([] : List ℚ).length + (fuel : ℤ) := by
        rw [List.length_nil]
        omega
      obtain ⟨r, hr⟩ := drawBlocks_returns rng hone hlen hfuel' s
      have hboot : blockBootstrap rng rets (c.steps rets) c.blockLen fuel s =
          .ok (r.1.take (c.steps rets).toNat, r.2) := by
        rw [blockBootstrap, hr]
        rfl
      rw [runPaths, hboot]
      exact ih _ _

/-- With blocks, paths and fuel for every step, the simulation returns. -/
theorem monteCarloRuin_returns (rng : Rng) {rets : List ℚ} (hne : rets ≠ []) {c : RuinParams}
    (h : 1 ≤ c.blockLen) (hpaths : 0 < c.paths) {fuel : ℕ} (hfuel : c.steps rets ≤ fuel) :
    ∃ a, monteCarloRuin rng rets c fuel = .ok a := by
  obtain ⟨t, ht⟩ := runPaths_returns rng hne h hfuel c.paths.toNat (Tally.start c)
    (rng.seed c.seed)
  have hresult : ∃ a, t.result c = .ok a := by
    rw [Tally.result, if_neg hpaths.ne', if_neg (not_lt.mpr hpaths.le)]
    exact ⟨_, rfl⟩
  obtain ⟨a, ha⟩ := hresult
  refine ⟨a, ?_⟩
  rw [monteCarloRuin, ht]
  exact ha

end Risk

end TreasuryForge

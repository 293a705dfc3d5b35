/-
# `Signals.MrScalp` — the mean-reversion candidate, one closed bar at a time

`signals/mr_scalp.py`: the streaming indicators and the entry test.  The queues are bounded
from the left, periods are integers as in the source, and whatever the source divides by may be
zero.
-/
import TreasuryForge.Signals.Pairs

namespace TreasuryForge

namespace MrScalp

open Loop Signals

structure Bar (K : Type) where
  h : K
  l : K
  c : K
  v : K
  ts : ℤ := 0
  deriving DecidableEq, Repr

structure MrScalpParams (K : Type) [Field K] where
  emaPeriod : ℤ := 200
  window : ℤ := 30
  rsiPeriod : ℤ := 14
  zEnter : K := -2
  rsiEnter : K := 30
  maxSpreadIn : K := 4 / 10 ^ 4
  minReturn30m : K := -2 / 100
  atrFast : ℤ := 5
  atrSlow : ℤ := 120
  atrRatioMax : K := 25 / 10
  tpNet : K := 25 / 10 ^ 4
  sl : K := -18 / 10 ^ 4
  zExit : K := -5 / 10
  maxHoldBars : ℤ := 10
  margin : K := 3 / 10 ^ 4

structure Indicators (K : Type) where
  close : K
  ema : K
  vwap : K
  std : K
  zscore : K
  rsi : K
  atrFast : K
  atrSlow : K
  returnW : K
  deriving DecidableEq, Repr

structure MrScalpSignal (K : Type) where
  ema : Option K := none
  a : K
  closes : List K := []
  /-- Typical price and volume. -/
  tpVol : List (K × K) := []
  tr : List K := []
  prevClose : Option K := none
  avgGain : K
  avgLoss : K
  rsiN : ℤ := 0
  ind : Option (Indicators K) := none
  deriving DecidableEq, Repr

variable {K : Type} [Field K] [LinearOrder K] (m : Maths K) (p : MrScalpParams K)

/-- `append` to a queue of bounded length. -/
def push {A : Type} (maxlen : ℤ) (xs : List A) (x : A) : List A :=
  (xs ++ [x]).drop (xs.length + 1 - maxlen.toNat)

namespace MrScalpSignal

/-- The constructor; a queue cannot have a negative bound. -/
def new : Except String (MrScalpSignal K) := do
  let a ← divide 2 ((p.emaPeriod : K) + 1)
  if p.window < 0 ∨ p.atrSlow < 0 then throw "ValueError: maxlen must be non-negative"
  return { a, avgGain := 0, avgLoss := 0 }

/-- Wilder's averages of gains and losses. -/
def advanceRsi (s : MrScalpSignal K) (close : K) : Except String (MrScalpSignal K) :=
  match s.prevClose with
  | none => .ok s
  | some prev =>
      let ch := close - prev
      let gain := max ch 0
      let loss := max (-ch) 0
      if s.rsiN < p.rsiPeriod then
        let s := { s with
          avgGain := s.avgGain + gain, avgLoss := s.avgLoss + loss, rsiN := s.rsiN + 1 }
        if s.rsiN = p.rsiPeriod then do
          let avgGain ← divide s.avgGain (p.rsiPeriod : K)
          let avgLoss ← divide s.avgLoss (p.rsiPeriod : K)
          return { s with avgGain, avgLoss }
        else return s
      else do
        let avgGain ← divide (s.avgGain * (p.rsiPeriod - 1) + gain) (p.rsiPeriod : K)
        let avgLoss ← divide (s.avgLoss * (p.rsiPeriod - 1) + loss) (p.rsiPeriod : K)
        return { s with avgGain, avgLoss }

def trueRange (s : MrScalpSignal K) (bar : Bar K) : K :=
  match s.prevClose with
  | none => bar.h - bar.l
  | some prev => max (bar.h - bar.l) (max |bar.h - prev| |bar.l - prev|)

/-- The last `n` of a list, as `xs[-n:]` has it. -/
def lastOf (xs : List K) (n : ℤ) : List K := slice xs (-n) xs.length

/-- `_compute` -/
def compute (s : MrScalpSignal K) (close : K) : Except String (Option (Indicators K)) :=
  match s.ema with
  | none => .ok none
  | some ema =>
      if (s.closes.length : ℤ) ≤ p.window ∨ (s.tr.length : ℤ) < p.atrSlow ∨ s.rsiN < p.rsiPeriod then
        .ok none
      else do
        let win := lastOf s.closes p.window
        let mean ← divide win.sum (p.window : K)
        let var ← divide ((win.map fun x => (x - mean) ^ 2).sum) (p.window : K)
        let std := if 0 < var then m.sqrt var else 0
        let num := (s.tpVol.map fun x => x.1 * x.2).sum
        let den := (s.tpVol.map fun x => x.2).sum
        let vwap := if 0 < den then num / den else mean
        let zscore := if 0 < std then (close - vwap) / std else 0
        -- no losses: an infinite ratio
        let rsi : K ←
          if 0 < s.avgLoss then (100 - ·) <$> divide 100 (1 + s.avgGain / s.avgLoss) else .ok 100
        let atrFast ← divide (lastOf s.tr p.atrFast).sum (p.atrFast : K)
        let atrSlow ← divide (lastOf s.tr p.atrSlow).sum (p.atrSlow : K)
        let closeWAgo ← index s.closes 0
        let returnW := if 0 < closeWAgo then (close - closeWAgo) / closeWAgo else 0
        return some ⟨close, ema, vwap, std, zscore, rsi, atrFast, atrSlow, returnW⟩

def update (s : MrScalpSignal K) (bar : Bar K) : Except String (MrScalpSignal K) := do
  let s := { s with
    ema := some (match s.ema with | none => bar.c | some e => s.a * bar.c + (1 - s.a) * e) }
  let s ← s.advanceRsi p bar.c
  let s := { s with
    tr := push p.atrSlow s.tr (s.trueRange bar)
    closes := push (p.window + 1) s.closes bar.c
    tpVol := push p.window s.tpVol ((bar.h + bar.l + bar.c) / 3, bar.v)
    prevClose := some bar.c }
  return { s with ind := ← s.compute m p bar.c }

def entryOk (s : MrScalpSignal K) (spread : K) : Bool :=
  match s.ind with
  | none => false
  | some i =>
      i.ema < i.close && i.zscore ≤ p.zEnter && i.rsi ≤ p.rsiEnter && spread ≤ p.maxSpreadIn &&
        p.minReturn30m < i.returnW && i.atrFast ≤ p.atrRatioMax * i.atrSlow

end MrScalpSignal

end MrScalp

end TreasuryForge

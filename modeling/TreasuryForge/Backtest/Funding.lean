/-
# `Backtest.Funding` — the backtest of the funding carry

`backtest/funding_backtest.py`: the signal decides each interval, and the net returns of the
intervals compound into the equity curve.
-/
import TreasuryForge.Shadow.Signals
import TreasuryForge.Backtest.Metrics

namespace TreasuryForge

namespace Backtest

open Shadow

structure FundingBacktestResult where
  returns : List ℚ := []
  intervalsInPosition : ℕ := 0
  nTrades : ℕ := 0
  totalReturn : ℚ := 0
  equityCurve : List ℚ := []

namespace FundingBacktestResult

def sharpe (m : Maths ℚ) (res : FundingBacktestResult) (intervalsPerYear : Option ℕ := none) :
    Except String ℚ := sharpeRatio m res.returns intervalsPerYear

def maxDrawdown (res : FundingBacktestResult) : ℚ := Backtest.maxDrawdown res.equityCurve

end FundingBacktestResult

/-- The signal, and what the intervals so far came to. -/
structure FundingRun where
  sig : FundingCarrySignal
  returns : List ℚ := []
  inCount : ℕ := 0
  trades : ℕ := 0

/-- One interval: funding while holding, less what opening or closing costs. -/
def FundingRun.interval (run : FundingRun) (fr : ℚ) : FundingRun :=
  let (action, sig) := run.sig.decide fr
  let accrued := if action = .enter ∨ action = .hold then fr else 0
  let r :=
    match action with
    | .enter => accrued - run.sig.p.entryCost
    | .exit => accrued - run.sig.p.exitCost
    | .hold => accrued
    | .flat => accrued
  { sig := sig
    returns := run.returns ++ [r]
    inCount := if action = .enter ∨ action = .hold then run.inCount + 1 else run.inCount
    trades := if action = .enter then run.trades + 1 else run.trades }

def backtestFundingCarry (fundingRates : List ℚ) (params : FundingCarryParams) :
    FundingBacktestResult :=
  let run := fundingRates.foldl FundingRun.interval { sig := { p := params } }
  let equity := equityCurve 1 run.returns
  { returns := run.returns
    intervalsInPosition := run.inCount
    nTrades := run.trades
    totalReturn := if equity = [] then 0 else equity.getLastD 1 - 1
    equityCurve := equity }

/-- The curve is that of the returns it is reported with. -/
theorem backtestFundingCarry_equityCurve (fundingRates : List ℚ) (params : FundingCarryParams) :
    (backtestFundingCarry fundingRates params).equityCurve =
      equityCurve 1 (backtestFundingCarry fundingRates params).returns := rfl

end Backtest

end TreasuryForge

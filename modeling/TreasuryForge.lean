import TreasuryForge.Base.Host
import TreasuryForge.Core.Runner
import TreasuryForge.Orders.World
import TreasuryForge.Orders.Invariant
import TreasuryForge.Orders.Retry
import TreasuryForge.Orders.AtMostOnce
import TreasuryForge.Orders.Terminal
import TreasuryForge.Core.Bounds
import TreasuryForge.Core.Limits
import TreasuryForge.Core.Journal
import TreasuryForge.Base.Window
import TreasuryForge.Live.Guards
import TreasuryForge.Live.Supervisor
import TreasuryForge.Live.Autonomous
import TreasuryForge.Live.AutonomousWorld
import TreasuryForge.Live.AutonomousProtocol
import TreasuryForge.Live.AutonomousStep
import TreasuryForge.Live.Limits
import TreasuryForge.Live.DoubleEntry
import TreasuryForge.Core.Crash
import TreasuryForge.Core.Recovery
import TreasuryForge.Live.Drift
import TreasuryForge.Live.Watchdog
import TreasuryForge.Live.Arm
import TreasuryForge.Live.Restart
import TreasuryForge.Live.Service
import TreasuryForge.Orders.Attribution
import TreasuryForge.Live.Attribution
import TreasuryForge.Orders.Attempts
import TreasuryForge.Orders.Durable
import TreasuryForge.Core.Portfolio
import TreasuryForge.Core.Solvency
import TreasuryForge.Core.Rolling
import TreasuryForge.Base.JsonScan
import TreasuryForge.Base.JsonValue
import TreasuryForge.Base.Lines
import TreasuryForge.Core.Ledger
import TreasuryForge.Core.Audit
import TreasuryForge.Base.HashChain
import TreasuryForge.Base.Replay
import TreasuryForge.Core.Tamper
import TreasuryForge.Base.JsonKept
import TreasuryForge.Base.JsonExact
import TreasuryForge.Core.Restore
import TreasuryForge.Shadow.Journaled
import TreasuryForge.Shadow.Signals
import TreasuryForge.Shadow.Book
import TreasuryForge.Shadow.Basis
import TreasuryForge.Base.Spells
import TreasuryForge.Live.Momentum
import TreasuryForge.Shadow.Carry
import TreasuryForge.Core.Delay
import TreasuryForge.Orders.Identity
import TreasuryForge.Orders.Blotter
import TreasuryForge.Core.Rounding
import TreasuryForge.Core.Gated
import TreasuryForge.Orders.Bitso
import TreasuryForge.Orders.Mock
import TreasuryForge.Risk.Tax
import TreasuryForge.Orders.Backoff
import TreasuryForge.Core.Marked
import TreasuryForge.Base.DecimalText
import TreasuryForge.Orders.Wire
import TreasuryForge.Orders.Hyperliquid
import TreasuryForge.Orders.Guarded
import TreasuryForge.Base.Dynamic
import TreasuryForge.Orders.Payload
import TreasuryForge.Orders.Contained
import TreasuryForge.Shadow.Decompose
import TreasuryForge.Base.Loop
import TreasuryForge.Signals.Regime
import TreasuryForge.Signals.Pairs
import TreasuryForge.Backtest.Pairs
import TreasuryForge.Backtest.Gate
import TreasuryForge.Signals.MrScalp
import TreasuryForge.Backtest.MrScalp
import TreasuryForge.Live.HardStop
import TreasuryForge.Base.Drawdown
import TreasuryForge.Backtest.Metrics
import TreasuryForge.Risk.Ruin
import TreasuryForge.Risk.Stress
import TreasuryForge.Backtest.Funding
import TreasuryForge.Capital.Consultants
import TreasuryForge.Risk.Report
import TreasuryForge.Capital.Broker
import TreasuryForge.Capital.Digest
import TreasuryForge.Capital.Allocator
import TreasuryForge.Backtest.Folds
import TreasuryForge.Risk.Graveyard
import TreasuryForge.Risk.PageHinkley
import TreasuryForge.Risk.TaxOrder
import TreasuryForge.Risk.TaxSave
import TreasuryForge.Capital.CrossVenue
import TreasuryForge.Risk.Stages
import TreasuryForge.Backtest.Tsmom
import TreasuryForge.Risk.Bootstrap
import TreasuryForge.Base.LeastSquares
import TreasuryForge.Base.RowReduce
import TreasuryForge.Signals.Inverse
import TreasuryForge.Signals.LeastSquares
import TreasuryForge.Base.Walk
import TreasuryForge.Marketlab.Fills
import TreasuryForge.Base.Paging
import TreasuryForge.Marketlab.Store
import TreasuryForge.Live.Relay
import TreasuryForge.Base.EventLog
import TreasuryForge.Live.Ignition
import TreasuryForge.Live.IgnitionRuns
import TreasuryForge.Live.Selection
import TreasuryForge.Orders.Nonce
import TreasuryForge.Orders.Ladder
import TreasuryForge.Orders.LadderProtocol
import TreasuryForge.Base.Holding
import TreasuryForge.Core.Profit
import TreasuryForge.Base.Since
import TreasuryForge.Shadow.Screener
import TreasuryForge.Shadow.Gate
import TreasuryForge.Base.Streak
import TreasuryForge.Capital.Venues
import TreasuryForge.Capital.EconomicGate
import TreasuryForge.Shadow.Record
import TreasuryForge.Live.ScalpShadow
import TreasuryForge.Capital.Orchestrator
import TreasuryForge.Base.Carry
import TreasuryForge.Orders.Filled
import TreasuryForge.Live.HlScalp

import BetterBucket.Foundation.CasLoop
import BetterBucket.Foundation.Descent
import BetterBucket.Foundation.InFlight
import BetterBucket.Foundation.Instants
import BetterBucket.Foundation.Linearizability
import BetterBucket.Foundation.LockFreedom
import BetterBucket.Foundation.MachineWords
import BetterBucket.Foundation.Observation
import BetterBucket.Foundation.Progress
import BetterBucket.Foundation.ScaledClock
import BetterBucket.Foundation.Schedule
import BetterBucket.Foundation.Tally
import BetterBucket.Foundation.TokenBucket
import BetterBucket.Foundation.Trapping
import BetterBucket.Engine.Bucket
import BetterBucket.Engine.Builder
import BetterBucket.Engine.Checked
import BetterBucket.Engine.Config
import BetterBucket.Engine.Core
import BetterBucket.Engine.Metrics
import BetterBucket.Engine.Scale
import BetterBucket.Arithmetic.Checked
import BetterBucket.Arithmetic.Clock
import BetterBucket.Arithmetic.Rate
import BetterBucket.Arithmetic.Slack
import BetterBucket.Arithmetic.Tokens
import BetterBucket.Arithmetic.UnitChoice
import BetterBucket.Protocol.ClockedRun
import BetterBucket.Protocol.Decisions
import BetterBucket.Protocol.Effects
import BetterBucket.Protocol.Ledger
import BetterBucket.Protocol.Promises
import BetterBucket.Protocol.Sequential
import BetterBucket.Contract.Batching
import BetterBucket.Contract.ClockAccuracy
import BetterBucket.Contract.ClockRange
import BetterBucket.Contract.Concurrency
import BetterBucket.Contract.Configuration
import BetterBucket.Contract.Conservation
import BetterBucket.Contract.Counting
import BetterBucket.Contract.DecisionPaths
import BetterBucket.Contract.EndOfClock
import BetterBucket.Contract.FinestUnit
import BetterBucket.Contract.FrozenReading
import BetterBucket.Contract.FullIsFresh
import BetterBucket.Contract.InitialFill
import BetterBucket.Contract.LiveMetrics
import BetterBucket.Contract.NeverEarly
import BetterBucket.Contract.NeverLate
import BetterBucket.Contract.NoTraps
import BetterBucket.Contract.Queueing
import BetterBucket.Contract.RealTime
import BetterBucket.Contract.RealTimeOrder
import BetterBucket.Contract.Refunds
import BetterBucket.Contract.Reservations
import BetterBucket.Contract.RetryHints
import BetterBucket.Contract.Snapshots
import BetterBucket.Contract.Surface
import BetterBucket.Contract.Throughput
import BetterBucket.Contract.Windows

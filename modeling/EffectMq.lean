import EffectMq.Library.JsMap
import EffectMq.Library.Json
import EffectMq.Library.Chunks
import EffectMq.Library.Codes
import EffectMq.Library.CodeUnits
import EffectMq.Library.Paging
import EffectMq.Library.Simulation
import EffectMq.Library.Ranks
import EffectMq.Library.ZSet
import EffectMq.Library.Scatter
import EffectMq.Library.Calls
import EffectMq.Library.Merge
import EffectMq.JobStore
import EffectMq.Numbers
import EffectMq.Retention
import EffectMq.Reports
import EffectMq.Flow
import EffectMq.Schedule
import EffectMq.FlowSpecs
import EffectMq.Board
import EffectMq.Batching
import EffectMq.MemoryJobStore.Store
import EffectMq.MemoryJobStore.Service
import EffectMq.MemoryJobStore.Lifecycle
import EffectMq.MemoryJobStore.Decompose
import EffectMq.MemoryJobStore.FlowBooks
import EffectMq.MemoryJobStore.Records
import EffectMq.MemoryJobStore.Listing
import EffectMq.MemoryJobStore.Outbox
import EffectMq.MemoryJobStore.Manifest
import EffectMq.MemoryJobStore.Sweep
import EffectMq.MemoryJobStore.Owed
import EffectMq.MemoryJobStore.Settle
import EffectMq.MemoryJobStore.Cancelled
import EffectMq.MemoryJobStore.Redelivery
import EffectMq.MemoryJobStore.Claims
import EffectMq.MemoryJobStore.Enqueue
import EffectMq.MemoryJobStore.Failures
import EffectMq.MemoryJobStore.Wake
import EffectMq.MemoryJobStore.Dedupe
import EffectMq.MemoryJobStore.Frame
import EffectMq.MemoryJobStore.Order
import EffectMq.MemoryJobStore.ClaimSpec
import EffectMq.MemoryJobStore.OneInFlight
import EffectMq.MemoryJobStore.Spacing
import EffectMq.MemoryJobStore.Interleave
import EffectMq.MemoryJobStore.Retention
import EffectMq.MemoryJobStore.Board
import EffectMq.MemoryJobStore.Reports
import EffectMq.MemoryJobStore.FailFast
import EffectMq.RedisJobStore.Keyspace
import EffectMq.RedisJobStore.Scripts
import EffectMq.RedisJobStore.FlowScripts
import EffectMq.RedisJobStore.Reports
import EffectMq.RedisJobStore.Retention
import EffectMq.RedisJobStore.DedupeSweep
import EffectMq.RedisJobStore.HistorySweep
import EffectMq.RedisJobStore.EnqueueMany
import EffectMq.RedisJobStore.Encoding
import EffectMq.RedisJobStore.Wire
import EffectMq.RedisJobStore.RoundTrips
import EffectMq.RedisJobStore.List
import EffectMq.RedisJobStore.ListQueries
import EffectMq.RedisJobStore.Indexes
import EffectMq.RedisJobStore.Lifecycle
import EffectMq.RedisJobStore.Moves
import EffectMq.RedisJobStore.Decompose
import EffectMq.RedisJobStore.Runs
import EffectMq.RedisJobStore.Claims
import EffectMq.RedisJobStore.Board
import EffectMq.RedisJobStore.Pages
import EffectMq.RedisJobStore.Tokens
import EffectMq.DrizzleJobStore.Tables
import EffectMq.DrizzleJobStore.Reports
import EffectMq.DrizzleJobStore.Retention
import EffectMq.DrizzleJobStore.Recovery
import EffectMq.DrizzleJobStore.RecoveryLoop
import EffectMq.DrizzleJobStore.Enqueue
import EffectMq.KeepAgreement
import EffectMq.ReportAgreement
import EffectMq.SweepAgreement
import EffectMq.EnqueueAgreement
import EffectMq.LifecycleAgreement
import EffectMq.Worker.Heartbeat
import EffectMq.Worker.FlowRuns
import EffectMq.Worker.Relay
import EffectMq.Worker.Drain
import EffectMq.Worker.Cascade
import EffectMq.Worker.Attempts
import EffectMq.Worker.Phases
import EffectMq.Worker.Incarnations
import EffectMq.Worker.Schedules
import EffectMq.Worker.Ticks
import EffectMq.Worker.JobSchedules
import EffectMq.MemoryJobStore.ChildResults
import EffectMq.MemoryJobStore.RunLedger
import EffectMq.Board
import EffectMq.Library.Simulation
import EffectMq.LifecycleAgreement
import EffectMq.ListAgreement
import EffectMq.LifecycleRuns

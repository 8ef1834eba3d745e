import CryptoCollector.Foundations.Runs
import CryptoCollector.Foundations.Groups
import CryptoCollector.Time
import CryptoCollector.Pacer
import CryptoCollector.Models.Interval
import CryptoCollector.Models.Candle
import CryptoCollector.Db.Candles
import CryptoCollector.Db.BatchedUpserts
import CryptoCollector.Api.CandlePages
import CryptoCollector.Api.DecimalRefolds
import CryptoCollector.Providers.Chain
import CryptoCollector.Providers.InTree
import CryptoCollector.Providers.Adapters
import CryptoCollector.Collectors.Backfill
import CryptoCollector.Collectors.BackfillWorkers
import CryptoCollector.Collectors.BackfillRules
import CryptoCollector.Collectors.BackfillCoverage
import CryptoCollector.Collectors.BackfillWalk
import CryptoCollector.Collectors.BackfillAdapters
import CryptoCollector.Collectors.Lease
import CryptoCollector.Collectors.LeaseWorkers
import CryptoCollector.Collectors.LeaseFencing
import CryptoCollector.Collectors.LeaseFairness
import CryptoCollector.Collectors.RetryBudget
import CryptoCollector.Collectors.CrashLoops
import CryptoCollector.Collectors.LivePollExclusivity
import CryptoCollector.Collectors.LivePollFairness
import CryptoCollector.Collectors.RollupRefresh
import CryptoCollector.Collectors.RollupConvergence
import CryptoCollector.Collectors.RollupFrame
import CryptoCollector.Collectors.RollupRepair
import CryptoCollector.Collectors.EgressAccounting
import CryptoCollector.Collectors.BackpressureRows
import CryptoCollector.Api.CycleOverlay
import CryptoCollector.Api.CycleOverlayAsOf
import CryptoCollector.Pacer.LocalThrottle
import CryptoCollector.Pacer.Releases
import CryptoCollector.Providers.ChainLaws
import CryptoCollector.Alarm.BackfillStall
import CryptoCollector.Alarm.Replicas
import CryptoCollector.Collectors.BackfillEnqueue
import CryptoCollector.Api.Metadata
import CryptoCollector.Api.KeysetLists
import CryptoCollector.Api.Quotes
import CryptoCollector.Api.CandleRefolds
import CryptoCollector.Api.SourceSelection
import CryptoCollector.Db.IntervalCoverage
import CryptoCollector.Collectors.BitstampPages
import CryptoCollector.Collectors.ClaimPacing
import CryptoCollector.Alarm.CreditAgreement
import CryptoCollector.Collectors.OverlayDivisions
import CryptoCollector.Collectors.ExactArithmetic
import CryptoCollector.Collectors.OverlaySpec
import CryptoCollector.Collectors.ProjectedKeys
import CryptoCollector.Collectors.ProjectionBands
import CryptoCollector.Alarm.SustainedTimers
import CryptoCollector.Providers.DerivTickers
import CryptoCollector.Db.IntervalCanonicalise
import CryptoCollector.Api.PollInterval
import CryptoCollector.Api.PollIntervalText
import CryptoCollector.Collectors.RestartBackoff
import CryptoCollector.Alarm.CrashLoop
import CryptoCollector.Api.CoinLinearizable
import CryptoCollector.Collectors.LeaseLoopSystem
import CryptoCollector.Api.CandleStream
import CryptoCollector.Api.RolledUpPages
import CryptoCollector.Api.LatestQuotes
import CryptoCollector.Lifecycle.Completion

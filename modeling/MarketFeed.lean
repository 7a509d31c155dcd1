import MarketFeed.Backup.Identity
import MarketFeed.Backup.Digest
import MarketFeed.Ledger.Reconciled
import MarketFeed.Ledger.Unknown
import MarketFeed.Lib.Run
import MarketFeed.Lib.Total
import MarketFeed.Ledger.Crash
import MarketFeed.Ledger.OneOpen
import MarketFeed.Ledger.Counting
import MarketFeed.Desk.Client
import MarketFeed.Desk.Pending
import MarketFeed.Desk.Step
import MarketFeed.Desk.Moves
import MarketFeed.Desk.OneOrder
import MarketFeed.Desk.AtMostOnce
import MarketFeed.Desk.ClosedDay
import MarketFeed.Desk.Dates
import MarketFeed.Desk.Booked
import MarketFeed.Desk.Limits
import MarketFeed.Desk.Baseline
import MarketFeed.Lib.Txn
import MarketFeed.Lib.Upsert
import MarketFeed.Lib.Greatest
import MarketFeed.Storage.Rows
import MarketFeed.Storage.Sqlite
import MarketFeed.Storage.RetrySafe
import MarketFeed.Writer.Clock
import MarketFeed.Writer.Messages
import MarketFeed.Writer.Step
import MarketFeed.Writer.Moves
import MarketFeed.Writer.Buffers
import MarketFeed.Writer.Bars
import MarketFeed.Storage.Postgres
import MarketFeed.Writer.Poison
import MarketFeed.Contest.Atomic
import MarketFeed.Contest.Halt
import MarketFeed.Contest.Sound
import MarketFeed.Lib.Feed
import MarketFeed.Mcast.Bookkeeping
import MarketFeed.Mcast.Client
import MarketFeed.Mcast.Held
import MarketFeed.Ring.Step
import MarketFeed.Ring.TornRead
import MarketFeed.Quality.Service
import MarketFeed.Retention.Continue
import MarketFeed.Retention.Late
import MarketFeed.Migration.Fingerprint
import MarketFeed.Migration.Resume
import MarketFeed.Strategy.Tape
import MarketFeed.Strategy.Parity
import MarketFeed.Auth.Bound
import MarketFeed.Gateway.Numbers
import MarketFeed.Gateway.Conflate
import MarketFeed.Gateway.CppWire
import MarketFeed.Gateway.Granted
import MarketFeed.Gateway.Access
import MarketFeed.Protocol.Cpp
import MarketFeed.Gap.Recovered
import MarketFeed.Ws.RoundTrip
import MarketFeed.Ws.Client
import MarketFeed.Ring.Delivery
import MarketFeed.Mcast.Retransmit
import MarketFeed.Gateway.Snapshot
import MarketFeed.WsGateway.Converges
import MarketFeed.Writer.Shutdown
import MarketFeed.Httpd.Framing
import MarketFeed.Retention.SameProof
import MarketFeed.Supervisor.Restarts
import MarketFeed.Kis.Limiter
import MarketFeed.Kis.Quotes
import MarketFeed.Bus.Publisher
import MarketFeed.Storage.Direct
import MarketFeed.Mcast.Datagrams
import MarketFeed.Bus.Reconnect
import MarketFeed.Protocol.Models
import MarketFeed.Gap.Chain
import MarketFeed.Kis.Token
import MarketFeed.Storage.Cuts
import MarketFeed.Writer.PartialBars
import MarketFeed.Retention.VerifyCache
import MarketFeed.Gap.RoundTrip
import MarketFeed.Quality.Recorded
import MarketFeed.Protocol.Fields
import MarketFeed.Protocol.Sequence
import MarketFeed.Strategy.Crossing
import MarketFeed.Lib.Series
import MarketFeed.Strategy.Exact
import MarketFeed.Strategy.Recurrences
import MarketFeed.Clock.Skew
import MarketFeed.WsGateway.Accounted
import MarketFeed.Httpd.Static
import MarketFeed.Supervisor.KeepRunning
import MarketFeed.Adapter.Watchdog
import MarketFeed.Kis.Subscriptions
import MarketFeed.Lib.Rotation
import MarketFeed.Gateway.FanOut
import MarketFeed.Protocol.Collisions
import MarketFeed.Lib.Streak
import MarketFeed.Quality.StaleValue
import MarketFeed.Lib.Calendar
import MarketFeed.Lib.IsoText
import MarketFeed.Migration.Conversions
import MarketFeed.Strategy.Accounting
import MarketFeed.Strategy.PaperLedger
import MarketFeed.Lib.FileLines
import MarketFeed.Retention.FreshArchive
import MarketFeed.Lib.Rowlock
import MarketFeed.Storage.Sessions
import MarketFeed.Storage.OnceStored
import MarketFeed.Storage.RetryCompletes
import MarketFeed.Auth.Sessions
import MarketFeed.Bus.Delivery
import MarketFeed.Lib.Ranks
import MarketFeed.Metrics.Histogram
import MarketFeed.Adapter.Recovery
import MarketFeed.Adapter.Replay
import MarketFeed.Backup.Drill
import MarketFeed.Quality.CrossVenue

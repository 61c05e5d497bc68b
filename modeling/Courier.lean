import Courier.Bot.Api
import Courier.Bot.Replies
import Courier.Bus
import Courier.Catalog.Row
import Courier.Catalog.Statement
import Courier.Catalog.Store
import Courier.Catalog.Text
import Courier.Chunk
import Courier.Command.Arguments
import Courier.Command.Encode
import Courier.Command.Jobs
import Courier.Command.Line
import Courier.Command.Usage
import Courier.Config.Basic
import Courier.Config.Decode
import Courier.Config.Encode
import Courier.Config.Environment
import Courier.Config.Setting
import Courier.Config.Toml
import Courier.Cron.Field
import Courier.Cron.Grammar
import Courier.Cron.Schedule
import Courier.Crontab.Basic
import Courier.Crontab.Daemon
import Courier.Delivery.Dispatcher
import Courier.Delivery.Encode
import Courier.Delivery.Line.Basic
import Courier.Delivery.Line.Settle
import Courier.Delivery.Log
import Courier.Delivery.Pool
import Courier.Delivery.Script
import Courier.Delivery.Station
import Courier.Delivery.Subscriber
import Courier.Delivery.Unit
import Courier.Delivery.Worker
import Courier.Job.Basic
import Courier.Job.Encode
import Courier.Job.Identifier
import Courier.Job.Option
import Courier.Json.Decode
import Courier.Json.Document
import Courier.Json.Encode
import Courier.Json.Printer
import Courier.Json.Token
import Courier.Json.Value
import Courier.Main
import Courier.Markup
import Courier.Message
import Courier.Number.Binary64
import Courier.Number.Decimal
import Courier.Number.Real
import Courier.Number.Width
import Courier.Program.Basic
import Courier.Program.Content
import Courier.Program.Disk
import Courier.Router
import Courier.Scheduler.Basic
import Courier.Scheduler.Encode
import Courier.Scheduler.Error
import Courier.Scheduler.Feed
import Courier.Scheduler.Keeper.Basic
import Courier.Scheduler.Keeper.Settle
import Courier.Scheduler.Queue
import Courier.Scheduler.Recorder
import Courier.Scheduler.Roster
import Courier.Service
import Courier.Service.Log
import Courier.Signal
import Courier.Task.Basic
import Courier.Task.Channel
import Courier.Task.Encode
import Courier.Task.Option
import Courier.Text.Blank
import Courier.Text.Percent
import Courier.Text.Punycode
import Courier.Text.Quoted
import Courier.Text.Url
import Courier.Time.Date
import Courier.Time.Decode
import Courier.Time.Encode
import Courier.Time.Instant
import Courier.Time.Ticker
import Courier.Time.Timed
import Courier.Time.Timestamp
import Courier.View.Article
import Courier.View.Render
import Courier.Proofs.Delivery.Move
import Courier.Proofs.Delivery.Tracked
import Courier.Proofs.Delivery.Depot
import Courier.Proofs.Delivery.Bay
import Courier.Proofs.Delivery.Custody
import Courier.Proofs.Delivery.DelayedOrder
import Courier.Proofs.Delivery.Shift
import Courier.Proofs.Delivery.Backoff
import Courier.Proofs.Delivery.ImmediateOrder
import Courier.Proofs.Delivery.Bare
import Courier.Proofs.Delivery.Lines
import Courier.Proofs.Delivery.Dispatching
import Courier.Proofs.Keyed
import Courier.Proofs.Delivery.Fleet
import Courier.Proofs.Delivery.Capacity
import Courier.Proofs.Delivery.Shutdown
import Courier.Proofs.Time.Calendar
import Courier.Proofs.Time.Stored
import Courier.Proofs.Time.Order
import Courier.Proofs.Catalog.Rows
import Courier.Proofs.Scheduling.Feeds
import Courier.Proofs.Scheduling.Calls
import Courier.Proofs.Scheduling.Reconciliation
import Courier.Proofs.Scheduling.Repetition
import Courier.Proofs.Scheduling.Booking
import Courier.Proofs.Scheduling.Entries
import Courier.Proofs.Scheduling.Keeping
import Courier.Proofs.Scheduling.Convergence
import Courier.Proofs.Delivery.Attempts
import Courier.Proofs.Cron.Next
import Courier.Proofs.Scheduling.Firing
import Courier.Proofs.Json.Scanning
import Courier.Proofs.Json.RoundTrip
import Courier.Proofs.Job.Options
import Courier.Proofs.Time.StoredOrder
import Courier.Proofs.Catalog.Refinement
import Courier.Proofs.View.Rendering
import Courier.Proofs.View.Tokens
import Courier.Proofs.Delivery.Chunks
import Courier.Proofs.Delivery.Packing
import Courier.Proofs.Delivery.Parcels
import Courier.Proofs.Delivery.Passes
import Courier.Proofs.Delivery.Throttle
import Courier.Proofs.Delivery.Yard
import Courier.Proofs.Delivery.Wakeups
import Courier.Proofs.Delivery.Markup
import Courier.Proofs.Crontab.Locks
import Courier.Proofs.Json.Reading
import Courier.Proofs.Json.Records
import Courier.Proofs.View.Contents
import Courier.Proofs.View.Layout
import Courier.Proofs.Message.Envelope
import Courier.Proofs.Message.Stamp
import Courier.Proofs.Routing.Denotation
import Courier.Proofs.Number.Rounding
import Courier.Proofs.Number.Shortest
import Courier.Proofs.Json.Numerals
import Courier.Proofs.Json.Doubles
import Courier.Proofs.Json.Reread
import Courier.Proofs.Command.Registration
import Courier.Proofs.Message.RoundTrip
import Courier.Proofs.Cron.Occurrence
import Courier.Proofs.Crontab.Windows
import Courier.Proofs.Time.Elapsed
import Courier.Proofs.Routing.Window
import Courier.Proofs.Task.LastOption
import Courier.Proofs.Scheduling.Holdings
import Courier.Proofs.Scheduling.Absorption
import Courier.Proofs.Scheduling.Failures
import Courier.Proofs.Delivery.Visible
import Courier.Proofs.Cron.Widening
import Courier.Proofs.Job.Written
import Courier.Proofs.Job.RoundTrip
import Courier.Proofs.Crontab.Keys
import Courier.Proofs.Time.Lengths
import Courier.Proofs.Time.StoredBytes
import Courier.Proofs.Crontab.Durations
import Courier.Proofs.Service.Launch

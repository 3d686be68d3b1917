import Celery.Library.Gregorian
import Celery.Library.Bisect
import Celery.Utils.Time
import Celery.Schedules.Crontab
import Celery.Schedules.NextDay
import Celery.Schedules.NextRun
import Celery.Schedules.CrontabParser
import Celery.Schedules.CrontabGrammar
import Celery.Schedules.IsDue
import Celery.Beat.Scheduler
import Celery.Beat.Oversleep
import Celery.Canvas.Signature
import Celery.Backends.Base
import Celery.Library.Transition
import Celery.Library.Readings
import Celery.Library.Heapq
import Celery.Worker.Request
import Celery.Worker.Callbacks
import Celery.App.Trace
import Celery.App.Retry
import Celery.App.Autoretry
import Celery.Worker.Strategy
import Celery.Backends.KeyValue
import Celery.Backends.Redis
import Celery.Backends.ChordIncr
import Celery.Canvas.Freeze
import Celery.Library.Outcome
import Celery.Canvas.Shape
import Celery.Canvas.Steps
import Celery.Canvas.Rules
import Celery.Canvas.ChordSize
import Celery.Backends.RestoredSize
import Celery.Backends.ChainFailure
import Celery.Backends.ChordError
import Celery.Canvas.Labels
import Celery.Canvas.Order
import Celery.Canvas.PartialArgs
import Celery.Canvas.Or
import Celery.Canvas.Unpack
import Celery.Canvas.Kind
import Celery.Canvas.Operands
import Celery.Canvas.Paren
import Celery.App.Replace
import Celery.Canvas.Eager
import Celery.Canvas.EagerWork
import Celery.Canvas.Dict
import Celery.Canvas.Apply
import Celery.Canvas.Unroll
import Celery.Canvas.GroupIndex
import Celery.Canvas.Stamp
import Celery.Canvas.Compose
import Celery.Canvas.FromDict
import Celery.Events.Dispatcher
import Celery.Worker.State
import Celery.Worker.Prefetch
import Celery.Worker.RateLimit
import Celery.Worker.Gossip
import Celery.Events.State
import Celery.Events.Indexes
import Celery.Events.Task
import Celery.Events.Family
import Celery.Events.Heartbeat
import Celery.Worker.Revoke
import Celery.Library.OrderedDict
import Celery.Utils.BufferMap
import Celery.Utils.Graph
import Celery.Utils.Tarjan
import Celery.Utils.Khan
import Celery.Utils.Topsort
import Celery.Bootsteps
import Celery.Utils.LimitedSet
import Celery.Utils.Purging
import Celery.Utils.Regen
import Celery.Utils.Signal
import Celery.Utils.Eviction
import Celery.Utils.Ties
import Celery.Results.Tree
import Celery.Backends.ChordCleanup
import Celery.Worker.Limit
import Celery.Backends.GetMany
import Celery.Results.Join
import Celery.Results.JoinNative
import Celery.Library.Brackets
import Celery.Utils.Saferepr
import Celery.Worker.Persistent
import Celery.Beat.Setup
import Celery.Library.Pattern
import Celery.Library.Split
import Celery.Library.Base64
import Celery.Security.Serialization
import Celery.App.SanitizeUrl
import Celery.Library.Raising
import Celery.Backends.ResultConsumer
import Celery.Backends.PendingUnsubscribe
import Celery.Backends.Pending
import Celery.Backends.Slots
import Celery.Backends.IterNative
import Celery.Backends.Rpc
import Celery.Backends.Polls
import Celery.Library.Frame
import Celery.Concurrency.ResultHandler
import Celery.Concurrency.AsynPool
import Celery.Concurrency.Writes
import Celery.Concurrency.Flush
import Celery.Concurrency.Exits
import Celery.App.Settings
import Celery.App.Configuration
import Celery.Library.BreadthFirst
import Celery.Results.Collect
import Celery.Platforms
import Celery.Worker.Lifecycle

import Courier.Config.Basic
import Courier.Delivery.Dispatcher
import Courier.Router
import Courier.Scheduler.Keeper.Settle

/-!
The service: from the catalog to the recipients.

The scheduler registers the jobs of the catalog with the cron daemon, the daemon puts fired tasks on
a channel, the router turns them into messages on the bus, and the dispatcher delivers these.  One
shutdown signal ends all of it.
-/

namespace Courier

open Time Delivery Scheduler

/-- Something that goes wrong outside the dispatcher. -/
inductive Incident
  | taskDropped (name : String) (e : RouteError)
  | schedulerFailed (e : SchedulerError)

/-- What a configuration asks for that cannot be made. -/
inductive LaunchError
  | bus
  | channel
deriving DecidableEq

/-- The wording of an error. -/
def LaunchError.message : LaunchError → String
  | .bus => "the bus cannot be made"
  | .channel => "the channel of fired tasks cannot be made"

/-- Where the router's loop is. -/
inductive RouterLoop
  | off
  | running
  | ended
deriving DecidableEq

/-- The service. -/
structure Service (σ : Type) where
  /-- The scheduler with the cron daemon and the catalog. -/
  keeper : Keeper Crontab.Daemon Catalog
  router : Router := {}
  routing : RouterLoop := .off
  /-- The dispatcher with the bus and the shutdown signal. -/
  dispatcher : Dispatcher σ
  /-- What has gone wrong and when, newest first. -/
  incidents : List (Nat × Incident) := []

namespace Service

variable {σ : Type}

/-! ### Starting and stopping -/

/-- A service that does nothing yet. -/
def idle (catalog : Catalog) (capacity : Nat) (dispatcher : Dispatcher σ) : Service σ :=
  { keeper := { scheduler := { queue := { channel := { capacity } } }, source := catalog },
    dispatcher }

/-- The service of a configuration on its bus and its channel, with all its loops. -/
def start (config : Config) (catalog : Catalog) (sender : σ) (bus : Bus) (channel : Channel) :
    Service σ :=
  let dispatcher : Dispatcher σ :=
    { pool := { max := config.dispatch.maxWorkers,
                period := 1000 * config.dispatch.workerPeriodSecs }
      period := config.dispatch.tickMillis
      maxRetry := config.dispatch.maxRetry
      bus
      sender }
  { keeper :=
      { scheduler := { queue := { channel } }
        source := catalog
        interval := 1000 * config.scheduler.syncIntervalSecs
        timeout := 1000 * config.scheduler.syncTimeoutSecs
        phase := .initial }
    routing := .running
    dispatcher := (dispatcher.startPool 0).subscribe }

/-- Starts the service of a configuration, unless its bus or its channel cannot be made.  That the
memory for them may be lacking is not modelled. -/
def launch (config : Config) (catalog : Catalog) (sender : σ) : Except LaunchError (Service σ) :=
  match Bus.new? config.dispatch.busCapacity with
  | none => .error .bus
  | some bus =>
    match Channel.new? config.scheduler.queueCapacity with
    | none => .error .channel
    | some channel => .ok (start config catalog sender bus channel)

/-- Sets the shutdown signal. -/
def setSignal (s : Service σ) (value : Bool) : Service σ :=
  { s with dispatcher := s.dispatcher.setSignal value }

/-- Lets go of the shutdown signal. -/
def dropSignal (s : Service σ) : Service σ := { s with dispatcher := s.dispatcher.dropSignal }

/-- The service without the record of what has happened. -/
def forget (s : Service σ) : Service σ :=
  { s with incidents := [], dispatcher := { s.dispatcher with reports := [] } }

/-! ### The channel -/

/-- The channel of fired tasks. -/
def channel (s : Service σ) : Channel := s.keeper.scheduler.queue.channel

/-- Replaces the channel of fired tasks. -/
def setChannel (s : Service σ) (channel : Channel) : Service σ :=
  let scheduler := s.keeper.scheduler
  { s with keeper := { s.keeper with
      scheduler := { scheduler with queue := { scheduler.queue with channel } } } }

/-- Puts a task on the channel; also says whether there was room for it. -/
def send (s : Service σ) (t : QueuedTask) : Bool × Service σ :=
  match s.channel.send? t with
  | some channel => (true, s.setChannel channel)
  | none => (false, s)

/-! ### The router -/

/-- Publishes messages in order. -/
def publishAll (s : Service σ) (ms : List Message) : Service σ :=
  let bus := ms.foldl (fun b m => (b.publish m).2) s.dispatcher.bus
  { s with dispatcher := { s.dispatcher with bus } }

/-- Handles a task: what becomes of it, and the service afterwards. -/
def route (s : Service σ) (t : QueuedTask) (m : Moment) : Except RouteError Verdict × Service σ :=
  let (verdict, router) := s.router.handle t m
  let s := { s with router }
  match verdict with
  | .ok (.publish _ message) => (verdict, s.publishAll [message])
  | _ => (verdict, s)

/-- Handles tasks in order. -/
def routeAll (m : Moment) (s : Service σ) : List QueuedTask → Service σ
  | [] => s
  | t :: ts =>
    match s.route t m with
    | (.ok _, s) => routeAll m s ts
    | (.error e, s) =>
      routeAll m { s with incidents := (m.elapsed, .taskDropped t.name e) :: s.incidents } ts

/-- Publishes the messages that are due, or drops all that wait when the signal is raised. -/
def settleWaiting (m : Moment) (s : Service σ) : Service σ :=
  if s.dispatcher.signal.raised then { s with router := {} }
  else
    let (ready, router) := s.router.release m.elapsed
    { s with router }.publishAll ready

/-- Handles the tasks on the channel. -/
def settleRouting (m : Moment) (s : Service σ) : Service σ :=
  match s.routing with
  | .running =>
    if s.dispatcher.signal.raised then
      { s with routing := .ended }.setChannel s.channel.abandon
    else
      let (tasks, channel) := s.channel.drain
      let s := (s.setChannel channel).routeAll m tasks
      if channel.closed then { s with routing := .ended }.setChannel channel.abandon else s
  | _ => s

/-! ### The scheduler -/

/-- Lets the scheduler and the cron daemon do what they do at a moment. -/
def settleKeeper (m : Moment) (s : Service σ) : Service σ :=
  let keeper := ({ s.keeper with signal := s.dispatcher.signal } : Keeper _ _).settle m
  let failure := match s.keeper.phase, keeper.phase with
    | .ended _, _ => []
    | _, .ended (.error e) => [(m.elapsed, Incident.schedulerFailed e)]
    | _, _ => []
  { s with keeper, incidents := failure ++ s.incidents }

/-- The service at rest. -/
def settle [Sender σ Parcel] (m : Moment) (s : Service σ) : Service σ :=
  let s := { s with dispatcher := s.dispatcher.settle m.elapsed }
  let s := ((s.settleKeeper m).settleWaiting m).settleRouting m
  { s with dispatcher := s.dispatcher.settle m.elapsed }

instance [Sender σ Parcel] : Timed (Service σ) where
  settle := settle
  next? s := earlier? (earlier? s.keeper.next? s.router.next?) s.dispatcher.next?

/-! ### With edits of the catalog -/

/-- Edits the catalog; an edit that fails changes nothing. -/
def editCatalog (s : Service σ) (edit : Catalog → Except SchedulerError Catalog) : Service σ :=
  match edit s.keeper.source with
  | .ok source => { s with keeper := { s.keeper with source } }
  | .error _ => s

/-- Lets the service run until the running clock shows `stop`, with edits of the catalog at readings
of their own, in order. -/
def run [Sender σ Parcel] (stop : Nat) (c : Clocked (Service σ)) :
    List (Nat × (Catalog → Except SchedulerError Catalog)) → Clocked (Service σ)
  | [] => c.pass (stop - c.moment.elapsed)
  | (time, edit) :: edits =>
    run stop ((c.pass (time - c.moment.elapsed)).modify fun s => s.editCatalog edit) edits

end Service

end Courier

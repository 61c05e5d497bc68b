import Courier.Scheduler.Basic
import Courier.Scheduler.Feed
import Courier.Signal
import Courier.Time.Ticker

/-!
The scheduler at work.

A `Keeper` reads the jobs first, starts the queue, and makes the table agree with the jobs again at
every tick, until the shutdown signal is raised.  While jobs are read nobody else may use the table:
calls from outside wait, and so does the loop while a caller reads.
-/

namespace Courier.Scheduler

open Time

/-- The time between two passes unless said otherwise, in milliseconds. -/
def defaultInterval : Nat := 300000

/-- How long jobs are read at most unless said otherwise, in milliseconds. -/
def defaultTimeout : Nat := 60000

/-- The shortest time between two passes, in milliseconds. -/
def leastInterval : Nat := 1000

/-- Where the loop is. -/
inductive Phase
  | off
  /-- It makes its first pass. -/
  | initial
  | resting (ticker : Ticker)
  /-- It makes a pass. -/
  | syncing (ticker : Ticker)
  | ended (result : Except SchedulerError Unit)

/-- A call from outside. -/
inductive Request
  | sync
  | add (job : Job)
  | remove (id : String)

/-- What comes of a call. -/
inductive Reply
  | report (r : Except SchedulerError SyncReport)
  | done (r : Except SchedulerError Unit)

/-- Jobs that are being read. -/
structure Reading where
  /-- Whether the loop reads them, and not a caller. -/
  forLoop : Bool
  /-- When they will have been read. -/
  stop : Nat
  jobs : Except SchedulerError (List Job)

/-- The scheduler at work. -/
structure Keeper (κ μ : Type) where
  scheduler : Scheduler κ
  source : μ
  interval : Nat := defaultInterval
  timeout : Nat := defaultTimeout
  signal : Signal := {}
  phase : Phase := .off
  reading : Option Reading := none
  /-- A call that waits for the table. -/
  request : Option Request := none
  /-- What came of the last call. -/
  reply : Option Reply := none

namespace Keeper

variable {κ μ : Type} [TaskQueue κ] [JobSource μ]

/-- Replaces the queue. -/
def setQueue (k : Keeper κ μ) (queue : κ) : Keeper κ μ :=
  { k with scheduler := { k.scheduler with queue } }

/-- Replaces the source. -/
def setSource (k : Keeper κ μ) (source : μ) : Keeper κ μ := { k with source }

/-- Starts the loop, which makes its first pass. -/
def start (k : Keeper κ μ) : Keeper κ μ := { k with phase := .initial }

/-- Whether somebody uses the table. -/
def isLocked (k : Keeper κ μ) : Bool := k.reading.isSome

/-- Starts to read the jobs. -/
def beginReading (k : Keeper κ μ) (now : Nat) (forLoop : Bool) : Keeper κ μ :=
  let (stop, jobs) := (JobSource.feed k.source).read now k.timeout
  { k with reading := some ⟨forLoop, stop, jobs⟩ }

/-- Makes the table agree with the jobs that have been read. -/
def apply (k : Keeper κ μ) (wall : Instant) (jobs : Except SchedulerError (List Job)) :
    Except SchedulerError SyncReport × Keeper κ μ :=
  let k := { k with reading := none }
  match jobs with
  | .error e => (.error e, k)
  | .ok jobs =>
    let (report, scheduler) := k.scheduler.sync wall jobs
    (.ok report, { k with scheduler })

/-- Goes on after the first pass: starts the queue and the ticker, unless the pass has failed. -/
def begin (k : Keeper κ μ) (now : Nat) (r : Except SchedulerError SyncReport) : Keeper κ μ :=
  match r with
  | .error e =>
    { k with phase := .ended (if e.isCancellation then .ok () else .error e) }
  | .ok _ =>
    let (started, queue) := TaskQueue.start k.scheduler.queue now
    let scheduler := { k.scheduler with queue }
    match started with
    | .error e => { k with scheduler, phase := .ended (.error e) }
    | .ok () =>
      { k with scheduler, phase := .resting (.after (max leastInterval k.interval) now) }

/-- Ends reading. -/
def finishReading (k : Keeper κ μ) (m : Moment) (r : Reading) : Keeper κ μ :=
  let (report, k) := k.apply m.wall r.jobs
  if r.forLoop then
    match k.phase with
    | .initial => k.begin m.elapsed report
    | .syncing t => { k with phase := .resting t }
    | _ => k
  else { k with reply := some (.report report) }

/-- Serves a call. -/
def serve (k : Keeper κ μ) (m : Moment) (r : Request) : Keeper κ μ :=
  let k := { k with request := none }
  match r with
  | .sync => k.beginReading m.elapsed false
  | .add j =>
    let (result, scheduler) := k.scheduler.add m.wall j
    { k with scheduler, reply := some (.done result) }
  | .remove id =>
    let (result, scheduler) := k.scheduler.remove id
    { k with scheduler, reply := some (.done result) }

/-- What the loop does without the table, if there is something. -/
def loopStep? (k : Keeper κ μ) (now : Nat) : Option (Keeper κ μ) :=
  match k.phase with
  | .initial =>
    if k.signal.raised then
      let reading := match k.reading with
        | some r => if r.forLoop then none else some r
        | none => none
      some { k with reading, phase := .ended (.ok ()) }
    else none
  | .resting t =>
    if k.signal.raised then
      let queue := TaskQueue.stop k.scheduler.queue
      some { k with scheduler := { k.scheduler with queue }, phase := .ended (.ok ()) }
    else if t.isDue now then some { k with phase := .syncing (t.taken now) }
    else none
  | _ => none

/-- What is done with the table, if there is something. -/
def tableStep? (k : Keeper κ μ) (m : Moment) : Option (Keeper κ μ) :=
  match k.reading with
  | some r => if r.stop ≤ m.elapsed then some (k.finishReading m r) else none
  | none =>
    match k.request with
    | some r => some (k.serve m r)
    | none =>
      match k.phase with
      | .initial | .syncing _ => some (k.beginReading m.elapsed true)
      | _ => none

/-- The next thing that happens at a moment, if there is one. -/
def step? (m : Moment) (k : Keeper κ μ) : Option (Keeper κ μ) :=
  match k.loopStep? m.elapsed with
  | some k => some k
  | none => k.tableStep? m

end Keeper

end Courier.Scheduler

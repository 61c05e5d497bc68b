import Courier.Scheduler.Error
import Courier.Task.Channel

/-!
The crontab: entries that put tasks on a channel at the times of their schedules.

Every entry knows the time of its next firing.  `Crontab.fireDue` fires the entries whose time has
come, each one once, and moves them on to their next occurrence.  A task that is to be unique takes
a lock on its queue, name and payload; while the lock holds, no other unique task with them is sent.
-/

namespace Courier

open Time

/-- An entry of the crontab. -/
structure Crontab.Entry where
  schedule : Cron.Schedule
  task : Task
  options : List TaskOption
  /-- When it fires next, if ever. -/
  nextRun : Option Instant
deriving DecidableEq

/-- The crontab. -/
structure Crontab where
  /-- The entries by id, in the order in which they came. -/
  entries : List (EntryId × Crontab.Entry) := []
  /-- The id of the next entry. -/
  fresh : EntryId := 0
  /-- The locks of unique tasks, each with the instant at which it ends. -/
  locks : List (String × Instant) := []
deriving DecidableEq

namespace Crontab

/-! ### Entries -/

/-- Adds an entry, which fires at the first occurrence after the present; there has to be one. -/
def register (c : Crontab) (now : Instant) (expr : String) (task : Task)
    (options : List TaskOption) : Except SchedulerError (EntryId × Crontab) :=
  match Cron.Schedule.parse expr with
  | .error e => .error (.invalidCron expr (.schedule e))
  | .ok schedule =>
    match schedule.next now with
    | none => .error (.invalidCron expr .exhausted)
    | some next =>
      .ok (c.fresh,
        { c with
          entries := c.entries ++ [(c.fresh, ⟨schedule, task, options, some next⟩)]
          fresh := c.fresh + 1 })

/-- Removes an entry. -/
def unregister (c : Crontab) (id : EntryId) : Except SchedulerError Crontab :=
  if (c.entries.lookup id).isSome then
    .ok { c with entries := c.entries.filter fun e => e.1 ≠ id }
  else .error (.entryNotFound id)

/-- When an entry fires next. -/
def nextRun? (c : Crontab) (id : EntryId) : Option Instant :=
  (c.entries.lookup id).bind Entry.nextRun

/-! ### Firing -/

/-- Whether an entry is due. -/
def Entry.isDue (e : Entry) (now : Instant) : Bool :=
  match e.nextRun with
  | some next => next ≤ now
  | none => false

/-- The entry after its firing. -/
def Entry.moveOn (e : Entry) (now : Instant) : Entry := { e with nextRun := e.schedule.next now }

/-- The tasks of the entries that are due, each with the seconds for which it is to be unique. -/
def due (c : Crontab) (now : Instant) : List (QueuedTask × Option Nat) :=
  (c.entries.filter fun e => e.2.isDue now).map fun e => e.2.task.fire e.1 e.2.options now

/-- What the lock of a unique task is on. -/
def uniqueKey (t : QueuedTask) : String := t.queue ++ ":" ++ t.name ++ ":" ++ t.payload

/-- The locks that still hold. -/
def holding (locks : List (String × Instant)) (now : Instant) : List (String × Instant) :=
  locks.filter fun l => now < l.2

/-- Takes the lock of a task for some seconds: whether it was free, and the locks afterwards. -/
def claim (locks : List (String × Instant)) (now : Instant) (t : QueuedTask) (seconds : Nat) :
    Bool × List (String × Instant) :=
  let locks := holding locks now
  if (locks.lookup (uniqueKey t)).isSome then (false, locks)
  else (true, (uniqueKey t, Task.after now seconds) :: locks)

/-- Sends a fired task, unless it is to be unique and its lock is taken: how many tasks were sent,
and locks and channel afterwards. -/
def sendFired (now : Instant) (locks : List (String × Instant)) (channel : Channel)
    (fired : QueuedTask × Option Nat) : Nat × List (String × Instant) × Channel :=
  let (free, locks) := match fired.2 with
    | some seconds => claim locks now fired.1 seconds
    | none => (true, locks)
  if free then
    match channel.send? fired.1 with
    | some channel => (1, locks, channel)
    | none => (0, locks, channel)
  else (0, locks, channel)

/-- Sends fired tasks in order. -/
def sendAll (now : Instant) :
    List (QueuedTask × Option Nat) → List (String × Instant) → Channel →
      Nat × List (String × Instant) × Channel
  | [], locks, channel => (0, locks, channel)
  | fired :: rest, locks, channel =>
    let (n, locks, channel) := sendFired now locks channel fired
    let (m, locks, channel) := sendAll now rest locks channel
    (n + m, locks, channel)

/-- Fires the entries that are due: how many tasks were sent, and crontab and channel afterwards. -/
def fireDue (c : Crontab) (now : Instant) (channel : Channel) : Nat × Crontab × Channel :=
  let (n, locks, channel) := sendAll now (c.due now) c.locks channel
  let entries := c.entries.map fun e => if e.2.isDue now then (e.1, e.2.moveOn now) else e
  (n, { c with entries, locks }, channel)

end Crontab

end Courier

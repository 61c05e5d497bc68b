import Courier.Scheduler.Queue

/-!
A task queue that only keeps a record.

A `Recorder` takes every call down and fires nothing.  It can be told to refuse tasks and entries,
and to refuse to start, so that the scheduler can be followed through the failures of a queue.
-/

namespace Courier.Scheduler

open Time

/-- A registration that was asked for. -/
structure Recorder.Call where
  task : Task
  expr : String
  options : List TaskOption

/-- A task queue that only keeps a record. -/
structure Recorder where
  /-- The next entry. -/
  fresh : EntryId := 0
  /-- The entries that are registered. -/
  live : List EntryId := []
  /-- The names of the tasks that are refused. -/
  refusedTasks : List String := []
  /-- The names of the entries that are not given up. -/
  refusedEntries : List String := []
  refusesStart : Bool := false
  /-- The registrations that were asked for, newest first. -/
  registered : List Recorder.Call := []
  /-- The entries whose removal was asked for, newest first. -/
  unregistered : List EntryId := []
  starts : Nat := 0
  stops : Nat := 0

namespace Recorder

/-- The name of an entry. -/
def entryName (id : EntryId) : String := "entry-" ++ toString id

/-- Registers a task, unless it is refused or its expression cannot be read. -/
def register (r : Recorder) (expr : String) (task : Task) (options : List TaskOption) :
    Except SchedulerError EntryId × Recorder :=
  let r := { r with registered := ⟨task, expr, options⟩ :: r.registered }
  if r.refusedTasks.contains task.name then (.error (.runtime "runtime full"), r)
  else
    match Cron.Schedule.parse expr with
    | .error e => (.error (.invalidCron expr (.schedule e)), r)
    | .ok _ => (.ok r.fresh, { r with fresh := r.fresh + 1, live := r.live ++ [r.fresh] })

/-- Removes an entry, unless that is refused. -/
def unregister (r : Recorder) (id : EntryId) : Except SchedulerError Unit × Recorder :=
  let r := { r with unregistered := id :: r.unregistered }
  if r.refusedEntries.contains (entryName id) then (.error (.runtime "runtime unavailable"), r)
  else if r.live.contains id then (.ok (), { r with live := r.live.filter (· ≠ id) })
  else (.error (.entryNotFound id), r)

/-- Starts, unless that is refused. -/
def start (r : Recorder) : Except SchedulerError Unit × Recorder :=
  let r := { r with starts := r.starts + 1 }
  if r.refusesStart then (.error (.runtime "no runtime"), r) else (.ok (), r)

instance : TaskQueue Recorder where
  settle _ r := r
  next? _ := none
  register r _ expr task options := r.register expr task options
  unregister := unregister
  start r _ := r.start
  stop r := { r with stops := r.stops + 1 }

end Recorder

end Courier.Scheduler

import Courier.Job.Basic
import Courier.Scheduler.Queue

/-!
The scheduler: registrations of jobs with a task queue.

The table says for every registered job which entry of the queue is its own and which version of the
job it was made from.  `Scheduler.sync` makes the table agree with a list of jobs: registrations
that are not current are removed first, then jobs without a current registration are added in order.
-/

namespace Courier

open Time

/-- The registration of a job. -/
structure Registration where
  entry : EntryId
  /-- The timestamp of the job as it was registered. -/
  updatedAt : Instant
deriving DecidableEq

/-- Registrations by job id. -/
abbrev Registrations := List (String × Registration)

namespace Registrations

/-- Replaces the registration of a job where it stands, or adds it at the end. -/
def insert (id : String) (r : Registration) : Registrations → Registrations
  | [] => [(id, r)]
  | p :: t => if p.1 = id then (id, r) :: t else p :: insert id r t

/-- Removes the registration of a job. -/
def erase (id : String) (t : Registrations) : Registrations := t.filter fun p => p.1 ≠ id

/-- Whether the registration of a job is at least as new as the job. -/
def isCurrent (t : Registrations) (j : Job) : Bool :=
  match t.lookup j.id with
  | some r => j.updatedAt ≤ r.updatedAt
  | none => false

end Registrations

/-- What a pass of the scheduler has done. -/
structure SyncReport where
  /-- Jobs registered. -/
  added : Nat := 0
  /-- Registrations removed. -/
  removed : Nat := 0
  /-- Registrations that the queue refused to remove. -/
  failedRemovals : Nat := 0
  /-- Jobs that could not be registered. -/
  failedAdds : Nat := 0
  /-- Jobs left out: without a cron expression, or with a registration that could not be removed. -/
  skipped : Nat := 0
deriving DecidableEq

/-- A table of registrations and the queue with their entries. -/
structure Scheduler (κ : Type) where
  table : Registrations := []
  queue : κ

namespace Scheduler

variable {κ : Type} [TaskQueue κ]

/-! ### One job -/

/-- Removes the registration of a job, if it has one. -/
def unregister (s : Scheduler κ) (id : String) : Except SchedulerError Unit × Scheduler κ :=
  match s.table.lookup id with
  | none => (.ok (), s)
  | some r =>
    match TaskQueue.unregister s.queue r.entry with
    | (.ok (), queue) => (.ok (), ⟨Registrations.erase id s.table, queue⟩)
    | (.error e, queue) => (.error e, { s with queue })

/-- Registers a job. -/
def register (s : Scheduler κ) (now : Instant) (j : Job) :
    Except SchedulerError Unit × Scheduler κ :=
  match TaskOption.ofJobOptions j.options with
  | .error (kind, fault) => (.error (.invalidOption kind fault), s)
  | .ok options =>
    match TaskQueue.register s.queue now j.cron (Task.ofJob j) options with
    | (.ok entry, queue) =>
      (.ok (), ⟨Registrations.insert j.id ⟨entry, j.updatedAt⟩ s.table, queue⟩)
    | (.error e, queue) => (.error e, { s with queue })

/-- Removes the registration of a job, if it has one; an error names the job. -/
def remove (s : Scheduler κ) (id : String) : Except SchedulerError Unit × Scheduler κ :=
  match s.unregister id with
  | (.ok (), s) => (.ok (), s)
  | (.error e, s) => (.error (.remove id e), s)

/-- Registers a job anew; one that may not be registered only loses its registration. -/
def add (s : Scheduler κ) (now : Instant) (j : Job) : Except SchedulerError Unit × Scheduler κ :=
  match s.remove j.id with
  | (.error e, s) => (.error e, s)
  | (.ok (), s) =>
    if j.schedulable then
      match s.register now j with
      | (.ok (), s) => (.ok (), s)
      | (.error e, s) => (.error (.register j.id e), s)
    else (.ok (), s)

/-! ### All jobs -/

/-- Removes registrations in order: the ids of those that the queue refused to remove. -/
def unregisterAll (s : Scheduler κ) : List String → List String × Scheduler κ
  | [] => ([], s)
  | id :: ids =>
    match s.unregister id with
    | (.ok (), s) => unregisterAll s ids
    | (.error _, s) =>
      let (failed, s) := unregisterAll s ids
      (id :: failed, s)

/-- Registers jobs in order, but not those whose old registration is still there and those without a
cron expression. -/
def registerAll (now : Instant) (failed : List String) (s : Scheduler κ) :
    List Job → SyncReport → SyncReport × Scheduler κ
  | [], report => (report, s)
  | j :: js, report =>
    if failed.contains j.id ∨ Text.blank j.cron then
      registerAll now failed s js { report with skipped := report.skipped + 1 }
    else
      match s.register now j with
      | (.ok (), s) => registerAll now failed s js { report with added := report.added + 1 }
      | (.error _, s) =>
        registerAll now failed s js { report with failedAdds := report.failedAdds + 1 }

/-- Makes the table agree with the enabled jobs. -/
def sync (s : Scheduler κ) (now : Instant) (jobs : List Job) : SyncReport × Scheduler κ :=
  let current := jobs.filter (Registrations.isCurrent s.table)
  let pending := jobs.filter fun j => !Registrations.isCurrent s.table j
  let stale := (s.table.map Prod.fst).filter fun id => !current.any fun j => j.id = id
  let (failed, s) := s.unregisterAll stale
  registerAll now failed s pending
    { removed := stale.length - failed.length, failedRemovals := failed.length }

end Scheduler

end Courier

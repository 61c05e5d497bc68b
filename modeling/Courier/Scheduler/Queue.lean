import Courier.Crontab.Daemon

/-!
Task queues: what the scheduler registers jobs with.

A queue may refuse any call.  The cron daemon is one.
-/

namespace Courier

open Time

/-- A queue that fires registered tasks by itself. -/
class TaskQueue (κ : Type) extends Timed κ where
  /-- Registers a task at an instant, to be fired at the times of a cron expression. -/
  register : κ → Instant → (expr : String) → Task → List TaskOption →
    Except SchedulerError EntryId × κ
  /-- Removes an entry. -/
  unregister : κ → EntryId → Except SchedulerError Unit × κ
  /-- Starts firing. -/
  start : κ → (now : Nat) → Except SchedulerError Unit × κ
  /-- Stops firing. -/
  stop : κ → κ

namespace Crontab.Daemon

instance : TaskQueue Daemon where
  register d now expr task options :=
    match d.crontab.register now expr task options with
    | .ok (id, crontab) => (.ok id, { d with crontab })
    | .error e => (.error e, d)
  unregister d id :=
    match d.crontab.unregister id with
    | .ok crontab => (.ok (), { d with crontab })
    | .error e => (.error e, d)
  start d now :=
    match d.start now with
    | .ok d => (.ok (), d)
    | .error e => (.error e, d)
  stop := stop

end Crontab.Daemon

/-- Either of two queues. -/
instance {κ ν : Type} [TaskQueue κ] [TaskQueue ν] : TaskQueue (κ ⊕ ν) where
  register
    | .inl q, now, expr, task, options =>
      (TaskQueue.register q now expr task options).map id .inl
    | .inr q, now, expr, task, options =>
      (TaskQueue.register q now expr task options).map id .inr
  unregister
    | .inl q, entry => (TaskQueue.unregister q entry).map id .inl
    | .inr q, entry => (TaskQueue.unregister q entry).map id .inr
  start
    | .inl q, now => (TaskQueue.start q now).map id .inl
    | .inr q, now => (TaskQueue.start q now).map id .inr
  stop
    | .inl q => .inl (TaskQueue.stop q)
    | .inr q => .inr (TaskQueue.stop q)

end Courier

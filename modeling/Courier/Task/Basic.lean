import Courier.Job.Basic
import Courier.Task.Option
import Courier.Time.Length

/-!
Tasks: what a job queues every time it fires.

`Task.ofJob` is the task of a job: its name and its payload as JSON text.  `Task.fire` makes the
queued task of one firing by applying the options in order, so that of two options for one field the
later one counts.
-/

namespace Courier

/-- A named piece of work with its payload as text, empty when there is none. -/
structure Task where
  name : String
  payload : String
deriving DecidableEq

/-- The queue of tasks that name none. -/
def defaultQueue : String := "default"

/-- The retry budget of tasks that name none. -/
def defaultTaskMaxRetry : Nat := 25

/-- A task as it is queued by a firing. -/
structure QueuedTask where
  /-- The id that the options give, if they give one. -/
  id : Option String
  /-- The cron entry that fired. -/
  entry : Nat
  name : String
  payload : String
  queue : String
  maxRetry : Nat
  timeout : Option Nat
  deadline : Option Time.Instant
  /-- Not to be handled before this instant. -/
  processAt : Time.Instant
  retention : Option Nat
  group : Option String
  enqueuedAt : Time.Instant
deriving DecidableEq

/-- Whether a queued task comes before another one in a report, or beside it: reports go by instant,
then by the entries' names, then by the tasks' names. -/
def QueuedTask.before (entryName : Nat → String) (a b : QueuedTask) : Bool :=
  let (x, y) := (entryName a.entry, entryName b.entry)
  if a.enqueuedAt = b.enqueuedAt then x < y || x = y && a.name ≤ b.name
  else a.enqueuedAt < b.enqueuedAt

namespace Task

/-- The payload with the job's id in place of a `job_id` that it has at the top. -/
def stamp (id : String) (payload : Json.Value) : Json.Value :=
  match payload with
  | .object ms =>
    if (Json.Members.get? "job_id" ms).isSome then
      .object (Json.Members.insert "job_id" (.string id) ms)
    else payload
  | _ => payload

/-- The task of a job. -/
def ofJob (j : Job) : Task :=
  ⟨j.name, match j.payload with
    | some p => (stamp j.id p).text
    | none => ""⟩

/-- The instant a number of seconds after another, or the last representable one. -/
def after (now : Time.Instant) (seconds : Nat) : Time.Instant :=
  ((Time.length? seconds).bind now.later?).getD Time.Instant.greatest

/-- The queued task of a firing before its options, and no uniqueness. -/
def draft (t : Task) (entry : Nat) (now : Time.Instant) : QueuedTask × Option Nat :=
  (⟨none, entry, t.name, t.payload, defaultQueue, defaultTaskMaxRetry, none, none, now, none,
    none,
    now⟩, none)

/-- What an option does to the queued task and to the time for which it is to be unique. -/
def apply (now : Time.Instant) (q : QueuedTask × Option Nat) (o : TaskOption) :
    QueuedTask × Option Nat :=
  match o with
  | .queue name => ({ q.1 with queue := name }, q.2)
  | .timeout s => ({ q.1 with timeout := some s }, q.2)
  | .deadline a => ({ q.1 with deadline := some a }, q.2)
  | .unique s => (q.1, some s)
  | .processAt a => ({ q.1 with processAt := a }, q.2)
  | .processIn s => ({ q.1 with processAt := after now s }, q.2)
  | .taskId id => ({ q.1 with id := some id }, q.2)
  | .retention s => ({ q.1 with retention := some s }, q.2)
  | .group name => ({ q.1 with group := some name }, q.2)
  | .maxRetry n => ({ q.1 with maxRetry := n }, q.2)

/-- The queued task of a firing at an instant, and the seconds for which it is to be unique. -/
def fire (t : Task) (entry : Nat) (options : List TaskOption) (now : Time.Instant) :
    QueuedTask × Option Nat :=
  options.foldl (apply now) (t.draft entry now)

end Task

end Courier

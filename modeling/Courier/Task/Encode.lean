import Courier.Task.Basic
import Courier.Time.Encode

/-!
JSON images of tasks and their options.

An option is shown as an object with one member, whose key is the option's kind.  A queued task
shows the name of the entry that fired it.
-/

namespace Courier

open Json ToValue

/-- The kind of an option and its value. -/
def TaskOption.member : TaskOption → String × Value
  | .queue name => ("queue", toValue name)
  | .timeout s => ("timeout", toValue s)
  | .deadline a => ("deadline", toValue a)
  | .unique s => ("unique", toValue s)
  | .processAt a => ("process_at", toValue a)
  | .processIn s => ("process_in", toValue s)
  | .taskId id => ("task_id", toValue id)
  | .retention s => ("retention", toValue s)
  | .group name => ("group", toValue name)
  | .maxRetry n => ("max_retry", toValue n)

instance : ToValue TaskOption := ⟨fun o => .ofMembers [o.member]⟩

instance : ToValue Task where
  toValue t := .ofMembers [("name", toValue t.name), ("payload", toValue t.payload)]

/-- The image of a queued task; `entryName` gives the names of entries. -/
def QueuedTask.toValue (entryName : Nat → String) (q : QueuedTask) : Value :=
  .ofMembers
    [("id", ToValue.toValue q.id), ("entry", .string (entryName q.entry)), ("name", .string q.name),
     ("payload", .string q.payload), ("queue", .string q.queue),
     ("max_retry", ToValue.toValue q.maxRetry), ("timeout", ToValue.toValue q.timeout),
     ("deadline", ToValue.toValue q.deadline), ("process_at", ToValue.toValue q.processAt),
     ("retention", ToValue.toValue q.retention), ("group", ToValue.toValue q.group),
     ("enqueued_at", ToValue.toValue q.enqueuedAt)]

end Courier

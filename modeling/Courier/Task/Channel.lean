import Courier.Task.Basic

/-!
The channel of fired tasks: a bounded queue that never blocks those who send.
-/

namespace Courier

/-- A queue of tasks on their way to the one who handles them. -/
structure Channel where
  /-- The greatest number of tasks on their way. -/
  capacity : Nat
  /-- The tasks, oldest first. -/
  tasks : List QueuedTask := []
  /-- Whether someone is there to handle them. -/
  attended : Bool := true
  /-- Whether nothing more can be sent. -/
  closed : Bool := false
deriving DecidableEq

namespace Channel

/-- The greatest capacity of a channel. -/
def greatestCapacity : Nat := 2305843009213693951

/-- A channel with room for some tasks; there is none without room, or with more than the greatest
capacity. -/
def new? (capacity : Nat) : Option Channel :=
  if capacity = 0 ∨ greatestCapacity < capacity then none else some { capacity }

/-- Sends a task, unless the channel is full or closed or nobody is there to handle the task. -/
def send? (c : Channel) (t : QueuedTask) : Option Channel :=
  if c.attended ∧ !c.closed ∧ c.tasks.length < c.capacity then
    some { c with tasks := c.tasks ++ [t] }
  else none

/-- Takes all tasks out. -/
def drain (c : Channel) : List QueuedTask × Channel := (c.tasks, { c with tasks := [] })

/-- The channel when nothing more will be sent. -/
def close (c : Channel) : Channel := { c with closed := true }

/-- The channel when the one who handles the tasks has left. -/
def abandon (c : Channel) : Channel := { c with tasks := [], attended := false }

end Channel

end Courier

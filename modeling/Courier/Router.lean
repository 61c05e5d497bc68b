import Courier.Message
import Courier.Task.Basic
import Courier.Time.Timed

/-!
The router: what becomes of fired tasks.

A notification task carries a message as its payload.  `verdict` says what becomes of a task that is
handled at some instant: its message is published, at once or when the task is due, or the task is
given up because its deadline comes first.  A `Router` keeps the messages that wait.
-/

namespace Courier

open Time

/-- The name of the tasks that carry messages. -/
def notifyTask : String := "notify:send"

/-- Why a task is dropped. -/
inductive RouteError
  | malformed (e : Json.DecodeError)
  | noRecipient
deriving DecidableEq

/-- The wording of an error. -/
def RouteError.message : RouteError → String
  | .malformed _ => notifyTask ++ " payload is not a message"
  | .noRecipient => notifyTask ++ " payload has no chat_id"

/-- What becomes of a task. -/
inductive Verdict
  /-- Its message is published at once. -/
  | publish (chatId : Int) (message : Message)
  /-- Its message is published after so many nanoseconds. -/
  | postpone (chatId : Int) (message : Message) (wait : Nat)
  /-- Its deadline comes first. -/
  | expired
  /-- It is no notification. -/
  | unhandled
deriving DecidableEq

namespace Router

/-- When a task that is handled at an instant is due. -/
def dueAt (t : QueuedTask) (now : Instant) : Instant := t.processAt.later now

/-- Whether the deadline of a task comes before it is due. -/
def isLate (t : QueuedTask) (now : Instant) : Bool :=
  match t.deadline with
  | some deadline => deadline ≤ dueAt t now
  | none => false

/-- What becomes of a task that is handled at an instant. -/
def verdict (t : QueuedTask) (now : Instant) : Except RouteError Verdict :=
  if t.name ≠ notifyTask then .ok .unhandled
  else if isLate t now then .ok .expired
  else
    match Message.ofText t.payload with
    | .error e => .error (.malformed e)
    | .ok m =>
      match m.chatId with
      | none => .error .noRecipient
      | some chatId =>
        if now < t.processAt then .ok (.postpone chatId m (t.processAt.since now).toNat)
        else .ok (.publish chatId m)

end Router

/-- The messages that wait, each with the reading of the running clock at which it is due. -/
structure Router where
  waiting : List (Nat × Message) := []
deriving DecidableEq

namespace Router

/-- Whole milliseconds that are not shorter than some nanoseconds. -/
def wholeMillis (nanos : Nat) : Nat := (nanos + (nanosPerMilli - 1)) / nanosPerMilli

/-- Handles a task: what becomes of it, and the router afterwards. -/
def handle (r : Router) (t : QueuedTask) (m : Moment) : Except RouteError Verdict × Router :=
  let v := verdict t m.wall
  match v with
  | .ok (.postpone _ message wait) =>
    (v, ⟨r.waiting ++ [(m.elapsed + wholeMillis wait, message)]⟩)
  | v => (v, r)

/-- Takes out the messages that are due, in the order in which they became due. -/
def release (r : Router) (now : Nat) : List Message × Router :=
  let (ready, rest) := r.waiting.partition fun w => w.1 ≤ now
  ((ready.mergeSort fun a b => a.1 ≤ b.1).map Prod.snd, ⟨rest⟩)

/-- When the next message is due. -/
def next? (r : Router) : Option Nat := earliest? (r.waiting.map fun w => some w.1)

end Router

end Courier

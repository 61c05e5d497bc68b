import Courier.Delivery.Log
import Courier.Json.Encode
import Courier.Service

/-!
The log of a service without a notification service.

A line says when something was dropped or failed, and what.  `Service.log` is the log in the order
of time, lines of one time by their texts.
-/

namespace Courier.Service

open Json ToValue Delivery

/-- A line of the log. -/
structure LogLine where
  time : Nat
  text : String
  /-- What the line is about. -/
  about : List (String × Value) := []

namespace LogLine

instance : ToValue LogLine where
  toValue l := .ofMembers ([("t", toValue l.time), ("message", toValue l.text)] ++ l.about)

/-- Whether a line comes before another one, or stands for the same. -/
def before (a b : LogLine) : Bool := a.time < b.time || a.time = b.time && a.text ≤ b.text

/-- What a parcel that is dropped is known by. -/
def ofParcel : Parcel → List (String × Value)
  | .text html => [("chars", toValue html.length)]
  | .photo url _ => [("url", toValue url)]

/-- The line about something in the dispatcher, if it is worth one. -/
def ofReport? : Nat × Report → Option LogLine
  | (time, .attempt a) =>
    some ⟨time, droppedMessage a.payload,
      ("chat_id", toValue a.recipient) :: ofParcel a.payload⟩
  | (time, .dropped _) => some ⟨time, "bus message dropped", []⟩
  | (_, .missed _) => none

/-- The line about something outside the dispatcher. -/
def ofIncident : Nat × Incident → LogLine
  | (time, .taskDropped name _) => ⟨time, "task dropped", [("task", toValue name)]⟩
  | (time, .schedulerFailed _) => ⟨time, "scheduler stopped with error", []⟩

end LogLine

/-- The log. -/
def log (s : Service LogSender) : List LogLine :=
  (s.dispatcher.reports.reverse.filterMap LogLine.ofReport? ++
    s.incidents.reverse.map LogLine.ofIncident).mergeSort LogLine.before

end Courier.Service

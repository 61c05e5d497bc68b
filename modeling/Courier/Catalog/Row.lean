import Courier.Job.Basic
import Courier.Scheduler.Error

/-!
Rows of the job catalog.

A row holds a job as texts and a number.  `Row.ofJob` writes a job down and `Row.job` reads it back;
what was written by hand may not be readable, and then the first column at fault is named.
-/

namespace Courier.Catalog

/-- A row of the catalog. -/
structure Row where
  id : String
  name : String
  cron : String
  /-- The payload as JSON text. -/
  payload : Option String
  /-- The options as JSON text. -/
  options : String
  /-- Zero for disabled jobs. -/
  enabled : Int
  /-- The timestamp by whose text the rows are ordered. -/
  updatedAt : String
deriving DecidableEq

namespace Row

/-- The row of a job. -/
def ofJob (j : Job) : Row :=
  ⟨j.id, j.name, j.cron, j.payload.map Json.Value.text,
   String.ofList (JobOption.printList j.options),
    if j.enabled then 1 else 0, j.updatedAt.stored⟩

/-- The payload that a column spells. -/
def readPayload : Option String → Except RowFault (Option Json.Value)
  | none => .ok none
  | some t =>
    match Json.parse t with
    | .ok v => .ok (some v)
    | .error e => .error (.payload e)

/-- The options that a column spells. -/
def readOptions (t : String) : Except RowFault (List JobOption) :=
  match JobOption.listOfText t with
  | .ok os => .ok os
  | .error e => .error (.options e)

/-- The instant that a column spells. -/
def readTime (t : String) : Except RowFault Time.Instant :=
  match Time.Timestamp.strict? t with
  | some a => .ok a
  | none => .error .updatedAt

/-- The job of a row; payload, options and timestamp are checked in this order. -/
def job (r : Row) : Except SchedulerError Job :=
  match readPayload r.payload, readOptions r.options, readTime r.updatedAt with
  | .error e, _, _ => .error (.invalidRow r.id e)
  | .ok _, .error e, _ => .error (.invalidRow r.id e)
  | .ok _, .ok _, .error e => .error (.invalidRow r.id e)
  | .ok payload, .ok options, .ok updatedAt =>
    .ok ⟨r.id, r.name, r.cron, payload, options, r.enabled ≠ 0, updatedAt⟩

end Row

end Courier.Catalog

import Courier.Cron.Schedule
import Courier.Json.Decode
import Courier.Task.Option

/-!
Errors of the catalog and the scheduler, by cause, and their wording.
-/

namespace Courier

/-- The id of a cron entry. -/
abbrev EntryId := Nat

/-- What is wrong with a row of the catalog. -/
inductive RowFault
  | payload (e : Json.DecodeError)
  | options (e : Json.DecodeError)
  | updatedAt
deriving DecidableEq

/-- The wording of a fault. -/
def RowFault.message : RowFault → String
  | .payload e => "payload: " ++ e.message
  | .options e => "options: " ++ e.message
  | .updatedAt => "updated_at: <time>"

/-- What is wrong with a cron expression. -/
inductive CronFault
  | schedule (e : Cron.ScheduleError)
  /-- It has no occurrence any more. -/
  | exhausted
deriving DecidableEq

/-- The wording of a fault. -/
def CronFault.message : CronFault → String
  | .schedule e => e.message
  | .exhausted => "no future occurrence"

/-- Why an operation on jobs fails. -/
inductive SchedulerError
  /-- The catalog cannot be read or written. -/
  | database
  | invalidRow (id : String) (fault : RowFault)
  | invalidCron (expr : String) (fault : CronFault)
  | invalidOption (kind : String) (fault : OptionFault)
  | jobNotFound (id : String)
  | entryNotFound (id : EntryId)
  | register (id : String) (cause : SchedulerError)
  | remove (id : String) (cause : SchedulerError)
  /-- A shutdown came first. -/
  | cancelled
  /-- Reading the catalog took too long. -/
  | timeout (seconds : Nat)
  /-- The task queue or the catalog is not able to work. -/
  | runtime (reason : String)
deriving DecidableEq

namespace SchedulerError

/-- The wording of an error; `entryName` gives the names of cron entries. -/
def message (entryName : EntryId → String) : SchedulerError → String
  | database => "<Database>"
  | invalidRow id fault => "Invalid job record " ++ id ++ ": " ++ fault.message
  | invalidCron expr fault => "Invalid cron expression '" ++ expr ++ "': " ++ fault.message
  | invalidOption kind fault => "Invalid option '" ++ kind ++ "': " ++ fault.message
  | jobNotFound id => "Job not found: " ++ id
  | entryNotFound id => "Cron entry not found: " ++ entryName id
  | register id cause => "Failed to register job " ++ id ++ ": " ++ cause.message entryName
  | remove id cause => "Failed to remove job " ++ id ++ ": " ++ cause.message entryName
  | cancelled => "Operation cancelled"
  | timeout seconds => "Operation timed out after " ++ toString seconds ++ "s"
  | runtime reason => "Runtime error: " ++ reason

/-- Cancellations and timeouts are no failures. -/
def isCancellation : SchedulerError → Bool
  | cancelled | timeout _ => true
  | _ => false

end SchedulerError

end Courier

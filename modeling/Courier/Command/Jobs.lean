import Courier.Catalog.Store
import Courier.Command.Line

/-!
The commands that edit the catalog.

`Jobs.run` carries a command out on a catalog and gives the lines that it prints.  A new job is
checked as a whole before it is saved: its schedule, its payload, the form of its options and their
meaning.
-/

namespace Courier.Command.Jobs

/-- Why a command fails. -/
inductive JobsError
  | scheduler (e : SchedulerError)
  | payloadSyntax
  | optionSyntax (e : OptionSyntaxError)
deriving DecidableEq

/-- The wording of an error; no command names cron entries. -/
def JobsError.message : JobsError → String
  | .scheduler e => e.message fun _ => ""
  | .payloadSyntax => "--payload must be valid JSON"
  | .optionSyntax e => e.message

/-- Makes the job of `jobs add`. -/
def build (id name cron : String) (payload : Option String) (options : List String)
    (enabled : Bool) (now : Time.Instant) : Except JobsError Job := do
  match Cron.Schedule.parse cron with
  | .error e => throw (.scheduler (.invalidCron cron (.schedule e)))
  | .ok _ => pure ()
  let payload ← match payload with
    | none => pure none
    | some t =>
      match Json.parse t with
      | .ok v => pure (some v)
      | .error _ => throw .payloadSyntax
  let options ← options.mapM fun t => (JobOption.parse t).mapError .optionSyntax
  match TaskOption.ofJobOptions options with
  | .error (kind, fault) => throw (.scheduler (.invalidOption kind fault))
  | .ok _ => pure ()
  return { Job.new id name cron now with payload, options, enabled }

/-- A text with blanks behind it up to a width. -/
def padRight (width : Nat) (s : String) : String :=
  s ++ String.ofList (List.replicate (width - s.length) ' ')

/-- The line that describes a job. -/
def describe (j : Job) : String :=
  j.id ++ "  [" ++ (if j.enabled then "on " else "off") ++ "]  " ++ padRight 20 j.name ++ "  " ++
    padRight 16 j.cron ++ "  updated " ++ j.updatedAt.plainText ++
    (if j.options.isEmpty then ""
      else "  options: " ++ String.intercalate "," (j.options.map JobOption.written))

/-- The lines that describe jobs. -/
def describeAll (js : List Job) : List String :=
  if js.isEmpty then ["No jobs."] else js.map describe

/-- Carries a command out: the lines that it prints and the catalog afterwards.  A new job gets the
id given. -/
def run (c : Catalog) (newId : String) (now : Time.Instant) (command : JobsCommand) :
    Except JobsError (List String × Catalog) := do
  match command with
  | .list =>
    let js ← c.list.mapError .scheduler
    return (describeAll js, c)
  | .add name cron payload options disabled =>
    let j ← build newId name cron payload options (!disabled) now
    let c ← (c.save j).mapError .scheduler
    return (["Created job " ++ j.id], c)
  | .enable id =>
    let c ← (c.setEnabled id true now).mapError .scheduler
    return (["Enabled job " ++ id], c)
  | .disable id =>
    let c ← (c.setEnabled id false now).mapError .scheduler
    return (["Disabled job " ++ id], c)
  | .remove id =>
    let c ← (c.remove id).mapError .scheduler
    return (["Removed job " ++ id], c)

end Courier.Command.Jobs

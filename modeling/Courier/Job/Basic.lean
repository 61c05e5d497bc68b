import Courier.Job.Option
import Courier.Time.Decode

/-!
Jobs: what the catalog keeps and the scheduler reads.

A job runs a named task at the times of a cron expression.  `Job.text` is its JSON text, in which an
absent payload is left out; `Job.read` reads it back, a payload of `null` being no payload.
-/

namespace Courier

open Json

/-- A job of the catalog. -/
structure Job where
  id : String
  /-- The task that is queued at every firing. -/
  name : String
  /-- The cron expression; a blank one is never due. -/
  cron : String
  payload : Option Json.Value
  /-- Options of the task, in order. -/
  options : List JobOption
  enabled : Bool
  /-- Moves forward with every edit. -/
  updatedAt : Time.Instant
deriving DecidableEq

namespace Job

/-- An enabled job without payload and options, made at an instant. -/
def new (id name cron : String) (now : Time.Instant) : Job :=
  ⟨id, name, cron, none, [], true, now⟩

/-- The job with a payload. -/
def withPayload (j : Job) (payload : Json.Value) : Job := { j with payload := some payload }

/-- The job with one more option. -/
def withOption (j : Job) (o : JobOption) : Job := { j with options := j.options ++ [o] }

/-- Only enabled jobs with a cron expression may be registered. -/
def schedulable (j : Job) : Bool := j.enabled && !Text.blank j.cron

/-! ### The JSON text -/

/-- The members of the job's JSON text, in order. -/
def members (j : Job) : List (String × List Char) :=
  [("id", printString j.id), ("name", printString j.name), ("cron_expr", printString j.cron)] ++
  (match j.payload with
    | some p => [("payload", p.print)]
    | none => []) ++
  [("options", JobOption.printList j.options), ("enabled", (Value.bool j.enabled).print),
   ("updated_at", printString j.updatedAt.text)]

/-- The job's JSON text. -/
def text (j : Job) : String := String.ofList (printObject j.members)

/-- The fields read so far. -/
structure Draft where
  id : Option String := none
  name : Option String := none
  cron : Option String := none
  payload : Option (Option Json.Value) := none
  options : Option (List JobOption) := none
  enabled : Option Bool := none
  updatedAt : Option Time.Instant := none

variable {S : Type} [Source S]

/-- The fields of a job, in order. -/
def fields : List (Read.Field S Draft) :=
  [⟨"id", fun d => d.id.isSome,
      fun s d => (Read.string s).map fun v => { d with id := some v }⟩,
   ⟨"name", fun d => d.name.isSome,
      fun s d => (Read.string s).map fun v => { d with name := some v }⟩,
   ⟨"cron_expr", fun d => d.cron.isSome,
      fun s d => (Read.string s).map fun v => { d with cron := some v }⟩,
   ⟨"payload", fun d => d.payload.isSome,
      fun s d => (Read.optional Source.value s).map fun v => { d with payload := some v }⟩,
   ⟨"options", fun d => d.options.isSome,
      fun s d => (JobOption.readList s).map fun v => { d with options := some v }⟩,
   ⟨"enabled", fun d => d.enabled.isSome,
      fun s d => (Read.bool s).map fun v => { d with enabled := some v }⟩,
   ⟨"updated_at", fun d => d.updatedAt.isSome,
      fun s d => (Read.instant s).map fun v => { d with updatedAt := some v }⟩]

/-- The job of the fields read: only payload and options may be missing. -/
def Draft.finish (missing : String → Nat → DecodeError) (d : Draft) : Except DecodeError Job :=
  match d.id, d.name, d.cron, d.enabled, d.updatedAt with
  | none, _, _, _, _ => .error (missing "id" 0)
  | _, none, _, _, _ => .error (missing "name" 1)
  | _, _, none, _, _ => .error (missing "cron_expr" 2)
  | _, _, _, none, _ => .error (missing "enabled" 5)
  | _, _, _, _, none => .error (missing "updated_at" 6)
  | some id, some name, some cron, some enabled, some updatedAt =>
    .ok ⟨id, name, cron, d.payload.getD none, d.options.getD [], enabled, updatedAt⟩

/-- Reads a job. -/
def read (s : S) : Except DecodeError Job :=
  Read.record "struct Job" fields {} Draft.finish s

/-- The job that a text spells. -/
def ofText (t : String) : Except DecodeError Job := Read.text (fun p : Place => read p) t

end Job

end Courier

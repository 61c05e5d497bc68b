import Courier.Job.Option
import Courier.Time.Timestamp

/-!
Options of a task: what the options of a job mean to the task queue.

`TaskOption.ofJobOption` reads one option by its kind; every kind that is not a known one is a retry
budget.  `TaskOption.ofJobOptions` reads a list, in order, and fails with the first option that
cannot be read.
-/

namespace Courier

/-- A typed option.  Lengths of time are whole seconds. -/
inductive TaskOption
  | queue (name : String)
  | timeout (seconds : Nat)
  | deadline (instant : Time.Instant)
  /-- No copy of the task may be queued for this long. -/
  | unique (seconds : Nat)
  | processAt (instant : Time.Instant)
  | processIn (seconds : Nat)
  | taskId (id : String)
  | retention (seconds : Nat)
  | group (name : String)
  | maxRetry (count : Nat)
deriving DecidableEq

/-- Why the value of an option cannot be used. -/
inductive OptionFault
  | notText
  | notCount
  | notTimestamp
  | badTimestamp
  | timestampOutOfRange
  | retriesOutOfRange
deriving DecidableEq

/-- The wording of a fault. -/
def OptionFault.message : OptionFault → String
  | .notText => "expected a non-empty string"
  | .notCount => "expected a non-negative integer"
  | .notTimestamp => "expected an RFC 3339 timestamp"
  | .badTimestamp => "<time>"
  | .timestampOutOfRange => "timestamp out of range"
  | .retriesOutOfRange => "retry count out of range"

namespace TaskOption

open Json

/-- The value of a list of decimal digits; there must be one and all must be digits. -/
def decimal? : List Char → Option Nat
  | [] => none
  | cs =>
    cs.foldl (fun v c => match v, Json.digit? c with
      | some v, some d => some (10 * v + d)
      | _, _ => none) (some 0)

/-- A count as text: decimal digits, perhaps after a plus sign, of an unsigned 64-bit number. -/
def countOfText? (cs : List Char) : Option Nat :=
  let digits := match cs with
    | '+' :: cs => cs
    | cs => cs
  match decimal? digits with
  | some n => if n < bound64 then some n else none
  | none => none

/-- A text that is not empty. -/
def textValue : Value → Except OptionFault String
  | .string s => if s = "" then .error .notText else .ok s
  | _ => .error .notText

/-- A count: a whole number that is not negative, or its text with blanks around it. -/
def countValue : Value → Except OptionFault Nat
  | .number (.whole n) => if 0 ≤ n then .ok n.toNat else .error .notCount
  | .string s =>
    match countOfText? (Text.trimChars s.toList) with
    | some n => .ok n
    | none => .error .notCount
  | _ => .error .notCount

/-- A timestamp: its exact text, or a signed 64-bit number of seconds since 1970. -/
def timestampValue : Value → Except OptionFault Time.Instant
  | .string s =>
    match Time.Timestamp.strict? s with
    | some a => .ok a
    | none => .error .badTimestamp
  | .number (.whole n) =>
    match Time.Instant.ofSeconds? n with
    | some a => .ok a
    | none => .error .timestampOutOfRange
  | .number (.real _) => .error .timestampOutOfRange
  | _ => .error .notTimestamp

/-- A retry budget: a count of 32 bits. -/
def retryValue (v : Value) : Except OptionFault Nat :=
  match countValue v with
  | .ok n => if n < bound32 then .ok n else .error .retriesOutOfRange
  | .error e => .error e

/-- Reads a value by the kind of its option. -/
def read (kind : String) (v : Value) : Except OptionFault TaskOption :=
  if kind = "queue" then (textValue v).map queue
  else if kind = "timeout" then (countValue v).map timeout
  else if kind = "deadline" then (timestampValue v).map deadline
  else if kind = "unique" then (countValue v).map unique
  else if kind = "process-at" then (timestampValue v).map processAt
  else if kind = "process-in" then (countValue v).map processIn
  else if kind = "task-id" then (textValue v).map taskId
  else if kind = "retention" then (countValue v).map retention
  else if kind = "group" then (textValue v).map group
  else (retryValue v).map maxRetry

/-- The option of a task that a job's option stands for, or its kind and what is wrong with it. -/
def ofJobOption (o : JobOption) : Except (String × OptionFault) TaskOption :=
  match read o.kind o.value with
  | .ok t => .ok t
  | .error e => .error (o.kind, e)

/-- The options of a task, in order, or the first one that cannot be read. -/
def ofJobOptions : List JobOption → Except (String × OptionFault) (List TaskOption)
  | [] => .ok []
  | o :: os =>
    match ofJobOption o with
    | .error e => .error e
    | .ok t =>
      match ofJobOptions os with
      | .error e => .error e
      | .ok ts => .ok (t :: ts)

end TaskOption

end Courier

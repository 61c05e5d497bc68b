import Courier.Json.Decode
import Courier.Json.Printer
import Courier.Text.Blank

/-!
Options of a job: a kind and a free-form value.

`JobOption.parse` reads the form `kind=value` of the command line, in which the value is JSON if it
reads as JSON and a plain string otherwise; `JobOption.written` is that form with the value as JSON
text.  In JSON an option is an object with the members `type` and `value`.
-/

namespace Courier

open Json

/-- A kind and a value, whose meaning is decided by the task queue. -/
structure JobOption where
  kind : String
  value : Json.Value
deriving DecidableEq

/-- Why a text is not an option. -/
inductive OptionSyntaxError
  | noEquals (text : String)
  | noKind (text : String)
deriving DecidableEq

/-- The wording of an error. -/
def OptionSyntaxError.message : OptionSyntaxError → String
  | .noEquals s => "Invalid job option: expected type=value, got '" ++ s ++ "'"
  | .noKind s => "Invalid job option: missing option type in '" ++ s ++ "'"

namespace JobOption

/-- The parts of a text before and after its first equals sign. -/
def splitEquals : List Char → Option (List Char × List Char)
  | [] => none
  | c :: cs => if c = '=' then some ([], cs) else (splitEquals cs).map fun (a, b) => (c :: a, b)

/-- A text as JSON if it is JSON, as a string otherwise. -/
def looseValue (raw : String) : Json.Value :=
  match Json.parse raw with
  | .ok v => v
  | .error _ => .string raw

/-- Reads `kind=value`; blanks around both are dropped. -/
def parse (s : String) : Except OptionSyntaxError JobOption :=
  match splitEquals s.toList with
  | none => .error (.noEquals s)
  | some (kind, raw) =>
    let kind := Text.trimChars kind
    if kind.isEmpty then .error (.noKind s)
    else .ok ⟨String.ofList kind, looseValue (String.ofList (Text.trimChars raw))⟩

/-- The option as `kind=value`. -/
def written (o : JobOption) : String := o.kind ++ "=" ++ o.value.text

/-! ### The JSON text -/

/-- The option's JSON text. -/
def print (o : JobOption) : List Char :=
  printObject [("type", printString o.kind), ("value", o.value.print)]

/-- The JSON text of a list of options. -/
def printList (os : List JobOption) : List Char :=
  '[' :: (commaSeparated (os.map print) ++ [']'])

/-- The fields read so far. -/
structure Draft where
  kind : Option String := none
  value : Option Json.Value := none

variable {S : Type} [Source S]

/-- The fields of an option, in order. -/
def fields : List (Read.Field S Draft) :=
  [⟨"type", fun d => d.kind.isSome,
      fun s d => (Read.string s).map fun v => { d with kind := some v }⟩,
   ⟨"value", fun d => d.value.isSome,
      fun s d => (Source.value s).map fun v => { d with value := some v }⟩]

/-- The option of the fields read; both are needed. -/
def Draft.finish (missing : String → Nat → DecodeError) (d : Draft) :
    Except DecodeError JobOption :=
  match d.kind, d.value with
  | none, _ => .error (missing "type" 0)
  | some _, none => .error (missing "value" 1)
  | some kind, some value => .ok ⟨kind, value⟩

/-- Reads an option. -/
def read (s : S) : Except DecodeError JobOption :=
  Read.record "struct JobOption" fields {} Draft.finish s

/-- Reads a list of options. -/
def readList (s : S) : Except DecodeError (List JobOption) := Read.list read s

/-- The options that a text spells. -/
def listOfText (t : String) : Except DecodeError (List JobOption) :=
  Read.text (fun p : Place => readList p) t

end JobOption

end Courier

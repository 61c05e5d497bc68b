import Courier.Json.Document
import Courier.Text.Quoted

/-!
Reading records out of JSON.

A `Source` is something that JSON can be read from: a text, as a `Document`, or a `Value` that is at
hand.  The readers of this module work on both.  They meet faults in the order of the source, so of
two faults the first one is reported, and they pass over members that they do not know.

A record is read from an object by the names of its fields or from an array by their places.  Its
fields are filled one by one into a draft; what is missing at the end is decided by the record.
-/

namespace Courier.Json

/-! ### Errors -/

/-- What a reader found where it expected something else. -/
inductive Found
  | null
  | bool (b : Bool)
  | whole (n : Int)
  | real (x : Binary64)
  | string (s : String)
  | sequence
  | map
deriving DecidableEq

/-- Why a record cannot be read. -/
inductive DecodeError
  /-- The text ends too early. -/
  | ended
  /-- The text is not JSON. -/
  | malformed
  /-- A timestamp is not one. -/
  | badTime
  | missingField (name : String)
  | duplicateField (name : String)
  | wrongType (found : Found) (expected : String)
  /-- The type is right but the value is out of range. -/
  | wrongValue (found : Found) (expected : String)
  /-- An array ends before a field that has no default. -/
  | tooShort (length : Nat) (expected : String)
  /-- An array has more items than the record has fields. -/
  | tooLong (length : Nat)
deriving DecidableEq

/-- The words for what was found. -/
def Found.text : Found → String
  | .null => "null"
  | .bool b => "boolean `" ++ (if b then "true" else "false") ++ "`"
  | .whole n => "integer `" ++ toString n ++ "`"
  | .real x => "floating point `" ++ x.text ++ "`"
  | .string s => "string " ++ Text.quote s
  | .sequence => "sequence"
  | .map => "map"

/-- The wording of an error. -/
def DecodeError.message : DecodeError → String
  | .ended => "<eof>"
  | .malformed => "<syntax>"
  | .badTime => "<time>"
  | .missingField name => "missing field `" ++ name ++ "`"
  | .duplicateField name => "duplicate field `" ++ name ++ "`"
  | .wrongType found expected => "invalid type: " ++ found.text ++ ", expected " ++ expected
  | .wrongValue found expected => "invalid value: " ++ found.text ++ ", expected " ++ expected
  | .tooShort n expected => "invalid length " ++ toString n ++ ", expected " ++ expected
  | .tooLong n => "invalid length " ++ toString n ++ ", expected fewer elements in array"

/-- The error for a text that stops. -/
def Stop.error : Stop → DecodeError
  | .ended | .endedInNumber => .ended
  | .malformed => .malformed

/-! ### Sources -/

/-- What stands at one place of a source.  A container tells whether it can be entered at all, and
what goes wrong after its last part, if anything does. -/
inductive View (S : Type)
  | null
  | bool (b : Bool)
  | number (n : Number)
  | string (s : String)
  | array (entered : Except DecodeError Unit) (items : List S) (close : Option DecodeError)
  | object (entered : Except DecodeError Unit) (members : List (Except DecodeError String × S))
      (close : Option DecodeError)

/-- Something that JSON can be read from. -/
class Source (S : Type) where
  view : S → Except DecodeError (View S)
  /-- The value that stands here. -/
  value : S → Except DecodeError Value
  /-- Passes over what stands here. -/
  skip : S → Except DecodeError Unit
  /-- The error for a record's array of this many items that has more than the record's fields. -/
  surplus : Nat → DecodeError

/-- The words for what stands at a place. -/
def View.found {S : Type} : View S → Found
  | .null => .null
  | .bool b => .bool b
  | .number (.whole n) => .whole n
  | .number (.real x) => .real x
  | .string s => .string s
  | .array .. => .sequence
  | .object .. => .map

/-- At most this many containers may be open at once in a text. -/
def maxDepth : Nat := 127

/-- A place in a text: what stands there, and how many containers may still be opened. -/
structure Place where
  room : Nat
  document : Document

/-- The text of a string as written. -/
def spell (pieces : List Piece) : Except DecodeError String :=
  match Piece.spell? pieces with
  | some cs => .ok (String.ofList cs)
  | none => .error .malformed

/-- The number of a numeral. -/
def Numeral.read (n : Numeral) : Except DecodeError Number :=
  match n.value? with
  | some n => .ok n
  | none => .error .malformed

/-- Entering a container needs room for it. -/
def enter (room : Nat) : Except DecodeError Unit :=
  if room = 0 then .error .malformed else .ok ()

/-- Succeeds unless there is an error. -/
def orFail (e : Option DecodeError) : Except DecodeError Unit :=
  match e with
  | none => .ok ()
  | some e => .error e

namespace Document

/-- The value of a document, with this many containers that may still be opened. -/
def value (room : Nat) : Document → Except DecodeError Value
  | .null => .ok .null
  | .bool b => .ok (.bool b)
  | .numeral n => n.read.map .number
  | .text ps => (spell ps).map .string
  | .broken b => .error b.reason.error
  | .array items stop => do
    enter room
    let vs ← values (room - 1) items
    orFail (stop.map fun b => b.reason.error)
    return .array vs
  | .object members stop => do
    enter room
    let ms ← valueMembers (room - 1) members
    orFail (stop.map fun b => b.reason.error)
    return .object (Members.ofList ms)
where
  values (room : Nat) : List Document → Except DecodeError (List Value)
    | [] => .ok []
    | d :: ds => do
      let v ← value room d
      let vs ← values room ds
      return v :: vs
  valueMembers (room : Nat) : List (List Piece × Document) →
      Except DecodeError (List (String × Value))
    | [] => .ok []
    | (ps, d) :: ms => do
      let k ← spell ps
      let v ← value room d
      let ms ← valueMembers room ms
      return (k, v) :: ms

end Document

instance : Source Place where
  view p :=
    let close (stop : Option Break) := stop.map fun b => b.reason.error
    match p.document with
    | .null => .ok .null
    | .bool b => .ok (.bool b)
    | .numeral n => n.read.map .number
    | .text ps => (spell ps).map .string
    | .broken b => .error b.reason.error
    | .array items stop =>
      .ok (.array (enter p.room) (items.map fun d => ⟨p.room - 1, d⟩) (close stop))
    | .object members stop =>
      .ok (.object (enter p.room) (members.map fun (ps, d) => (spell ps, ⟨p.room - 1, d⟩))
        (close stop))
  value p := p.document.value p.room
  skip p := orFail (p.document.skip.map Stop.error)
  surplus _ := .malformed

instance : Source Value where
  view v :=
    match v with
    | .null => .ok .null
    | .bool b => .ok (.bool b)
    | .number n => .ok (.number n)
    | .string s => .ok (.string s)
    | .array items => .ok (.array (.ok ()) items none)
    | .object members => .ok (.object (.ok ()) (members.map fun (k, v) => (.ok k, v)) none)
  value v := .ok v
  skip _ := .ok ()
  surplus n := .tooLong n

/-! ### Readers -/

namespace Read

variable {S α σ : Type} [Source S]

/-- A string. -/
def string (s : S) : Except DecodeError String := do
  match ← Source.view s with
  | .string t => return t
  | v => throw (.wrongType v.found "a string")

/-- A boolean. -/
def bool (s : S) : Except DecodeError Bool := do
  match ← Source.view s with
  | .bool b => return b
  | v => throw (.wrongType v.found "a boolean")

/-- A signed 64-bit number. -/
def int64 (s : S) : Except DecodeError Int := do
  match ← Source.view s with
  | .number (.whole n) =>
    if -(bound63 : Int) ≤ n ∧ n < bound63 then return n else throw (.wrongValue (.whole n) "i64")
  | v => throw (.wrongType v.found "i64")

/-- `null` for nothing, or what the reader reads. -/
def optional (read : S → Except DecodeError α) (s : S) : Except DecodeError (Option α) := do
  match ← Source.view s with
  | .null => return none
  | _ => return some (← read s)

/-- A list of what the reader reads. -/
def list (read : S → Except DecodeError α) (s : S) : Except DecodeError (List α) := do
  match ← Source.view s with
  | .array entered items close =>
    entered
    let xs ← items.mapM read
    orFail close
    return xs
  | v => throw (.wrongType v.found "a sequence")

/-- A map from keys to what the reader reads, the last of equal keys winning. -/
def map (read : S → Except DecodeError α) (s : S) : Except DecodeError (List (String × α)) := do
  match ← Source.view s with
  | .object entered members close =>
    entered
    let ms ← members.mapM fun (key, s) => do
      let k ← key
      return (k, ← read s)
    orFail close
    return Members.ofList ms
  | v => throw (.wrongType v.found "a map")

/-- A field of a record under construction. -/
structure Field (S σ : Type) where
  name : String
  /-- Whether the draft has the field already. -/
  filled : σ → Bool
  fill : S → σ → Except DecodeError σ

/-- How a record was written. -/
inductive Form
  | named
  | placed
deriving DecidableEq

/-- The error for a field, at this place of the record, that is missing and has no default. -/
def Form.missing (form : Form) (expected name : String) (place : Nat) : DecodeError :=
  match form with
  | .named => .missingField name
  | .placed => .tooShort place expected

/-- Fills the draft from the members of an object. -/
def fillNamed (fields : List (Field S σ)) :
    List (Except DecodeError String × S) → σ → Except DecodeError σ
  | [], draft => .ok draft
  | (key, s) :: ms, draft => do
    let k ← key
    match fields.find? fun f => f.name == k with
    | some f =>
      if f.filled draft then throw (.duplicateField k)
      fillNamed fields ms (← f.fill s draft)
    | none =>
      Source.skip s
      fillNamed fields ms draft

/-- Fills the draft from the items of an array; the items left over. -/
def fillPlaced : List (Field S σ) → List S → σ → Except DecodeError (List S × σ)
  | f :: fs, s :: ss, draft => do fillPlaced fs ss (← f.fill s draft)
  | _, ss, draft => .ok (ss, draft)

/-- A record, from an object or an array.  `expected` names the record, `finish` makes it of the
draft. -/
def record (article : String) (fields : List (Field S σ)) (draft : σ)
    (finish : (String → Nat → DecodeError) → σ → Except DecodeError α) (s : S) :
    Except DecodeError α := do
  let expected := article ++ " with " ++ toString fields.length ++ " elements"
  match ← Source.view s with
  | .object entered members close =>
    entered
    let draft ← fillNamed fields members draft
    orFail close
    finish (Form.named.missing expected) draft
  | .array entered items close =>
    entered
    let (rest, draft) ← fillPlaced fields items draft
    if items.length < fields.length then orFail close
    let a ← finish (Form.placed.missing expected) draft
    if !rest.isEmpty then throw (Source.surplus (S := S) items.length)
    orFail close
    return a
  | v => throw (.wrongType v.found article)

/-- What the reader reads, when the text holds nothing but that. -/
def text (read : Place → Except DecodeError α) (t : String) : Except DecodeError α := do
  let (document, more) := Document.ofText t
  let a ← read ⟨maxDepth, document⟩
  if more then throw .malformed
  return a

end Read

/-- The value that a text spells. -/
def parse (t : String) : Except DecodeError Value := Read.text (fun p : Place => Source.value p) t

end Courier.Json

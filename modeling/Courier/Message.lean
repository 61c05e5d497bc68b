import Courier.Json.Decode
import Courier.Json.Printer

/-!
Messages: the envelopes of notifications on the bus.

A message names a recipient, a view and the data that the view shows.  `Message.text` is its JSON
text, in which an absent recipient and an absent image are left out; `Message.read` reads it back,
from an object or from an array of the fields in order.
-/

namespace Courier

open Json

/-- A notification before it is rendered. -/
structure Message where
  /-- The chat that receives it. -/
  chatId : Option Int
  /-- An image shown with it. -/
  imageUrl : Option String
  /-- The view that shows its data. -/
  view : String
  data : Json.Value
  /-- Delayed messages are spaced out, all others go at once. -/
  delay : Bool
deriving DecidableEq

namespace Message

/-- A message without an image that goes at once. -/
def new (chatId : Int) (view : String) (data : Json.Value) : Message :=
  ⟨some chatId, none, view, data, false⟩

/-- The message with an image. -/
def withImage (m : Message) (url : String) : Message := { m with imageUrl := some url }

/-- The message as one that is spaced out. -/
def delayed (m : Message) : Message := { m with delay := true }

/-! ### The JSON text -/

/-- The members of the message's JSON text, in order. -/
def members (m : Message) : List (String × List Char) :=
  (match m.chatId with
    | some c => [("chat_id", (Value.number (.whole c)).print)]
    | none => []) ++
  (match m.imageUrl with
    | some u => [("image_url", printString u)]
    | none => []) ++
  [("view", printString m.view), ("data", m.data.print), ("delay", (Value.bool m.delay).print)]

/-- The message's JSON text. -/
def text (m : Message) : String := String.ofList (printObject m.members)

/-- The fields read so far. -/
structure Draft where
  chatId : Option (Option Int) := none
  imageUrl : Option (Option String) := none
  view : Option String := none
  data : Option Json.Value := none
  delay : Option Bool := none

variable {S : Type} [Source S]

/-- The fields of a message, in order. -/
def fields : List (Read.Field S Draft) :=
  [⟨"chat_id", fun d => d.chatId.isSome,
      fun s d => (Read.optional Read.int64 s).map fun v => { d with chatId := some v }⟩,
   ⟨"image_url", fun d => d.imageUrl.isSome,
      fun s d => (Read.optional Read.string s).map fun v => { d with imageUrl := some v }⟩,
   ⟨"view", fun d => d.view.isSome,
      fun s d => (Read.string s).map fun v => { d with view := some v }⟩,
   ⟨"data", fun d => d.data.isSome,
      fun s d => (Source.value s).map fun v => { d with data := some v }⟩,
   ⟨"delay", fun d => d.delay.isSome,
      fun s d => (Read.bool s).map fun v => { d with delay := some v }⟩]

/-- The message of the fields read: only the view has no default. -/
def Draft.finish (missing : String → Nat → DecodeError) (d : Draft) :
    Except DecodeError Message :=
  match d.view with
  | none => .error (missing "view" 2)
  | some view =>
    .ok ⟨d.chatId.getD none, d.imageUrl.getD none, view, d.data.getD .null, d.delay.getD false⟩

/-- Reads a message. -/
def read (s : S) : Except DecodeError Message :=
  Read.record "struct Message" fields {} Draft.finish s

/-- The message that a text spells. -/
def ofText (t : String) : Except DecodeError Message := Read.text (fun p : Place => read p) t

end Message

end Courier

import Courier.Chunk
import Courier.Message
import Courier.View.Render

/-!
Units and entries: what one message becomes on its way out.

A `Parcel` is what one call to the notification service delivers: a text, or a photo with or without
a caption.  A `Delivery.Unit` is a payload with its retry budget, and an `Entry` is a list of units
that go out in order.  `Entry.process` sends them one after the other; `Entry.answer` says what one
answer of the service does to an entry.  `Deliverable` is what workers need to know of what they
deliver, be it bare entries or entries with something attached.
-/

namespace Courier

/-- What one call to the notification service delivers. -/
inductive Parcel
  | text (html : String)
  | photo (url : String) (caption : Option String)
deriving DecidableEq

/-- The service's answer to one call.  Times are in milliseconds. -/
inductive Outcome
  | delivered
  /-- The service asks to wait. -/
  | rateLimited (retryAfter : Nat)
  | failed (reason : String)
deriving DecidableEq

/-- The wording of an outcome that is no delivery; whole seconds are shown. -/
def Outcome.message : Outcome → String
  | delivered => "ok"
  | rateLimited wait => "Rate limited, retry after " ++ toString (wait / 1000) ++ "s"
  | failed reason => "Send failed: " ++ reason

namespace Delivery

/-- What can be delivered call by call. -/
class Deliverable (ε : Type) where
  /-- Whether it is spaced out; all else goes at once. -/
  delay : ε → Bool
  /-- Whether nothing is left to deliver. -/
  isDone : ε → Bool
  /-- What an answer to the call under way makes of it, and the time to wait when that call is to be
  made again. -/
  answer : ε → Outcome → ε × Nat

/-- How often a unit is tried unless said otherwise. -/
def defaultMaxRetry : Nat := 3

/-- A payload and its retry budget. -/
structure Unit (π : Type) where
  payload : π
  /-- How often the service has asked to wait with this unit. -/
  retryCount : Nat
  /-- How often the unit may be tried. -/
  maxRetry : Nat
deriving DecidableEq

/-- A unit that has not been tried. -/
def Unit.new {π : Type} (payload : π) (maxRetry : Nat) : Unit π := ⟨payload, 0, maxRetry⟩

/-- Units that go out in order. -/
structure Entry (π : Type) where
  units : List (Unit π)
  /-- Delayed entries are spaced out, all others go at once. -/
  delay : Bool
deriving DecidableEq

namespace Entry

variable {π σ : Type}

/-- What an answer to the call for the first unit does to an entry: the entry afterwards, and the
time to wait when the unit is to be tried again.  A delivered unit is gone; a unit that has to wait
stays first while its budget lasts; any other answer gives the whole entry up. -/
def answer (e : Entry π) (outcome : Outcome) : Entry π × Nat :=
  match e.units with
  | [] => (e, 0)
  | u :: rest =>
    match outcome with
    | .delivered => ({ e with units := rest }, 0)
    | .rateLimited wait =>
      if 0 < wait ∧ u.retryCount + 1 < u.maxRetry then
        ({ e with units := { u with retryCount := u.retryCount + 1 } :: rest }, wait)
      else ({ e with units := [] }, 0)
    | .failed _ => ({ e with units := [] }, 0)

instance : Deliverable (Entry π) := ⟨Entry.delay, fun e => e.units.isEmpty, answer⟩

@[simp] theorem deliverable_delay (e : Entry π) : Deliverable.delay e = e.delay := rfl

@[simp] theorem deliverable_isDone (e : Entry π) : Deliverable.isDone e = e.units.isEmpty := rfl

@[simp] theorem deliverable_answer (e : Entry π) (o : Outcome) :
    Deliverable.answer e o = e.answer o := rfl

/-- Sends the units of an entry in order until none is left or the service asks to wait.  `send`
makes one call; its state is threaded through. -/
def processUnits (send : σ → π → Outcome × σ) (delay : Bool) :
    List (Unit π) → σ → Entry π × Nat × σ
  | [], s => (⟨[], delay⟩, 0, s)
  | u :: rest, s =>
    let (outcome, s) := send s u.payload
    let (e, wait) := answer ⟨u :: rest, delay⟩ outcome
    match outcome with
    | .delivered => processUnits send delay rest s
    | _ => (e, wait, s)

/-- Sends the units of an entry: what is left of it and the time to wait, zero when nothing is
left. -/
def process (send : σ → π → Outcome × σ) (e : Entry π) (s : σ) : Entry π × Nat × σ :=
  processUnits send e.delay e.units s

end Entry

/-! ### From messages to entries -/

/-- Why a message does not become an entry. -/
inductive EntryError
  | render (e : RenderError)
  /-- The rendering is blank and there is no image. -/
  | empty
deriving DecidableEq

/-- The parcels of a rendering: its chunks as texts, unless it is blank; with an image, the photo
first, and the first chunk as its caption if it is short enough. -/
def parcels (imageUrl : Option String) (html : List Char) : List Parcel :=
  let chunks := if html.all Text.isBlank then [] else Chunk.split Chunk.messageMax html
  let texts (cs : List (List Char)) := cs.map fun c => Parcel.text (String.ofList c)
  match imageUrl with
  | none => texts chunks
  | some url =>
    if url = "" then texts chunks
    else
      match chunks with
      | first :: rest =>
        if first.length ≤ Chunk.captionMax then
          .photo url (some (String.ofList first)) :: texts rest
        else .photo url none :: texts (first :: rest)
      | [] => [.photo url none]

/-- The entry of a message. -/
def Entry.ofMessage (m : Message) (maxRetry : Nat) : Except EntryError (Entry Parcel) :=
  match render m.view m.data with
  | .error e => .error (.render e)
  | .ok html =>
    match parcels m.imageUrl html with
    | [] => .error .empty
    | ps => .ok ⟨ps.map fun p => Unit.new p maxRetry, m.delay⟩

end Delivery

end Courier

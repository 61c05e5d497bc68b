import Courier.Delivery.Unit

/-!
From envelopes on the bus to entries of recipients.
-/

namespace Courier.Delivery

/-- Why an envelope is dropped. -/
inductive EnvelopeError
  | malformed (e : Json.DecodeError)
  | noRecipient
  | entry (e : EntryError)
deriving DecidableEq

/-- The recipient of an envelope and the entry for it. -/
def readEnvelope (maxRetry : Nat) (text : String) : Except EnvelopeError (Int × Entry Parcel) :=
  match Message.ofText text with
  | .error e => .error (.malformed e)
  | .ok m =>
    match m.chatId with
    | none => .error .noRecipient
    | some recipient =>
      match Entry.ofMessage m maxRetry with
      | .error e => .error (.entry e)
      | .ok entry => .ok (recipient, entry)

end Courier.Delivery

import Courier.Delivery.Line.Basic

/-!
The sender that is used when no notification service is configured: it drops everything.
-/

namespace Courier.Delivery

/-- The sender that drops everything at once and reports it as delivered. -/
inductive LogSender
  | mk
deriving DecidableEq

instance : Sender LogSender Parcel where
  send s _ _ := ((.delivered, 0), s)

/-- What is logged about a parcel that is dropped. -/
def droppedMessage : Parcel → String
  | .text _ => "no sender configured, text dropped"
  | .photo .. => "no sender configured, photo dropped"

end Courier.Delivery

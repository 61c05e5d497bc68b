import Courier.Delivery.Unit
import Courier.Text.Url

/-!
Calls to the notification service.

`Call.ofParcel` is the call that delivers a parcel to a chat, and `Answer.outcome` what its answer
means for the parcel.  A photo needs a URL; without one there is no call.
-/

namespace Courier.Bot

open Json

/-- A call: a text by name and value, or a photo as a form of texts. -/
inductive Call
  | sendText (chatId : Int) (text : String)
  | sendPhoto (chatId : Int) (url : String) (caption : Option String)
deriving DecidableEq

/-- The name of the method that a call uses. -/
def Call.method : Call → String
  | sendText .. => "SendMessage"
  | sendPhoto .. => "SendPhoto"

/-- The parameters of a call, in order.  Texts are in HTML; a form has texts only. -/
def Call.parameters : Call → List (String × Value)
  | sendText chatId text =>
    [("chat_id", .number (.whole chatId)), ("text", .string text), ("parse_mode", .string "HTML")]
  | sendPhoto chatId url caption =>
    [("chat_id", .string (toString chatId)), ("photo", .string url)] ++
      match caption with
      | some c => [("caption", .string c), ("parse_mode", .string "HTML")]
      | none => []

/-- The call that delivers a parcel, or the URL that is none. -/
def Call.ofParcel (chatId : Int) : Parcel → Except String Call
  | .text html => .ok (.sendText chatId html)
  | .photo url caption =>
    match Text.Url.normalize? url with
    | some u => .ok (.sendPhoto chatId u caption)
    | none => .error url

/-- What the service answers. -/
inductive Answer
  | done
  /-- Come back after so many seconds. -/
  | comeBack (seconds : Nat)
  | refused
deriving DecidableEq

/-- Reads an answer. -/
def Answer.ofValue (v : Value) : Answer :=
  match v.get? "ok" with
  | some (.bool true) => if (v.get? "result").isSome then .done else .refused
  | _ =>
    match (v.get? "parameters").bind fun p => p.get? "retry_after" with
    | some (.number (.whole n)) => if 0 ≤ n then .comeBack n.toNat else .refused
    | _ => .refused

/-- What an answer means for the parcel. -/
def Answer.outcome : Answer → Outcome
  | done => .delivered
  | comeBack seconds => .rateLimited (1000 * seconds)
  | refused => .failed "<api>"

/-- The outcome for a parcel whose URL is none. -/
def noCall (url : String) : Outcome := .failed ("invalid image url " ++ url)

end Courier.Bot

import Courier.Delivery.Line.Basic
import Courier.Json.Encode

/-!
JSON images of what is delivered, and of the calls that deliver it.
-/

namespace Courier

open Json ToValue

/-- The members that show a parcel: its text, or its photo and caption. -/
def Parcel.members : Parcel → List (String × Value)
  | .text html => [("text", toValue html)]
  | .photo url caption => [("photo", toValue url), ("caption", toValue caption)]

/-- An outcome in a word. -/
def Outcome.word : Outcome → String
  | delivered => "ok"
  | rateLimited _ => "rate"
  | failed _ => "fail"

namespace Delivery

instance : ToValue (Unit Parcel) where
  toValue u := .ofMembers
    (u.payload.members ++
      [("retry_count", toValue u.retryCount), ("max_retry", toValue u.maxRetry)])

/-- The members that show an entry. -/
def Entry.members (e : Entry Parcel) : List (String × Value) :=
  [("delay", toValue e.delay), ("units", toValue e.units)]

instance : ToValue (Entry Parcel) := ⟨fun e => .ofMembers e.members⟩

/-- The members that show when a call was over and what came of it. -/
def Attempt.brief (a : Attempt Parcel) : List (String × Value) :=
  [("t", toValue a.time), ("result", toValue a.outcome.word)]

/-- The members that show a call. -/
def Attempt.members (a : Attempt Parcel) : List (String × Value) :=
  a.brief ++ ("chat", toValue a.recipient) :: a.payload.members

end Delivery

end Courier

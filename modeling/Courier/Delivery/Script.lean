import Courier.Delivery.Line.Basic

/-!
A sender that answers by a script.

A `Script` lists answers for some recipients and for all others, and gives them one after the other;
where a list has come to its end every call succeeds at once.  With it the course of a delivery can
be followed without a notification service.
-/

namespace Courier.Delivery

/-- An answer, and the milliseconds that it takes. -/
abbrev Script.Answer := Outcome × Nat

/-- Answers to come. -/
structure Script where
  /-- The answers for recipients with a list of their own, by the recipients' digits. -/
  own : List (String × List Script.Answer) := []
  /-- The answers for all other recipients. -/
  others : List Script.Answer := []

namespace Script

/-- The next answer of a list, and the list after it. -/
def take : List Answer → Answer × List Answer
  | [] => ((.delivered, 0), [])
  | a :: rest => (a, rest)

/-- The answer to a call. -/
def answer (s : Script) (recipient : Int) : Answer × Script :=
  let name := toString recipient
  match s.own.lookup name with
  | some answers =>
    let (a, rest) := take answers
    (a, { s with own := s.own.map fun p => if p.1 = name then (name, rest) else p })
  | none =>
    let (a, others) := take s.others
    (a, { s with others })

instance {π : Type} : Sender Script π where
  send s recipient _ := s.answer recipient

end Script

end Courier.Delivery

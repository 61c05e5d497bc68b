import Courier.Delivery.Worker

/-!
A worker at work: its transitions, in the order in which they come.

A `Line` is a worker with the call that it waits for and the one who makes the calls.  `Line.step?`
is the next thing that the worker does at an instant: it takes the answer to a call that is over,
makes the next call, starts on an immediate entry, ends, or takes a tick, in this order of
preference.
-/

namespace Courier.Delivery

/-- Those who make calls to the notification service. -/
class Sender (σ : Type) (π : Type) where
  /-- Makes a call to a recipient: the answer and how long it takes. -/
  send : σ → (recipient : Int) → π → (Outcome × Nat) × σ

/-- A call under way: when it will be over, and its answer. -/
structure Call where
  due : Nat
  outcome : Outcome
deriving DecidableEq

/-- A call that is over. -/
structure Attempt (π : Type) where
  /-- When it was over. -/
  time : Nat
  recipient : Int
  payload : π
  outcome : Outcome
deriving DecidableEq

/-- Whether a call comes before another one in a report, or beside it: reports go by time, then by
recipient. -/
def Attempt.before {π : Type} (a b : Attempt π) : Bool :=
  a.time < b.time || a.time = b.time && a.recipient ≤ b.recipient

/-- A worker at work. -/
structure Line (σ π : Type) where
  worker : Worker (Entry π)
  /-- The call for the entry in hand. -/
  call : Option Call
  sender : σ
  /-- The calls that are over, newest first. -/
  attempts : List (Attempt π)

namespace Line

variable {σ π : Type}

/-- Goes on with the entry in hand: takes the answer to its call if that is over, or makes the call
for its first unit. -/
def proceed? [Sender σ π] (now : Nat) (l : Line σ π) (e : Entry π) : Option (Line σ π) :=
  match e.units, l.call with
  | u :: _, some c =>
    if c.due ≤ now then
      some { l with
        worker := l.worker.answer now c.outcome
        call := none
        attempts := ⟨now, l.worker.recipient, u.payload, c.outcome⟩ :: l.attempts }
    else none
  | u :: _, none =>
    let ((outcome, duration), sender) := Sender.send l.sender l.worker.recipient u.payload
    some { l with call := some ⟨now + duration, outcome⟩, sender }
  | [], _ => some { l with worker := { l.worker with inHand := none }, call := none }

/-- The next thing that the worker does at an instant, if there is one; `stop` says whether the
shutdown signal is raised. -/
def step? [Sender σ π] (stop : Bool) (now : Nat) (l : Line σ π) : Option (Line σ π) :=
  let w := l.worker
  match w.inHand with
  | some e => l.proceed? now e
  | none =>
    if w.closed then none
    else if !w.immediate.isEmpty then some { l with worker := w.takeImmediate, call := none }
    else if stop then some { l with worker := w.halt }
    else if w.ticker.isDue now then some { l with worker := w.tick now, call := none }
    else none

end Line

end Courier.Delivery

import Courier.Delivery.Unit
import Courier.Time.Ticker

/-!
Workers: one recipient, one call at a time.

A worker holds two queues.  Immediate entries are taken as soon as the worker is free; of the
delayed ones a tick of the worker's ticker takes the first.  An entry whose unit has to wait goes
back to the head of the delayed queue, and the next tick comes when the wait is over.  A tick that
finds nothing closes the worker, and so does the shutdown signal; closed workers take no more
entries.

Every transition gets the time at which it happens.
-/

namespace Courier.Delivery

open Time

/-- How far apart delayed entries are unless said otherwise, in milliseconds. -/
def defaultPeriod : Nat := 3000

/-- A worker. -/
structure Worker (ε : Type) where
  recipient : Int
  ticker : Ticker
  /-- Entries that wait for a tick. -/
  delayed : List ε := []
  /-- Entries that wait for the worker to be free. -/
  immediate : List ε := []
  /-- The entry whose first unit is on its way. -/
  inHand : Option ε := none
  closed : Bool := false
deriving DecidableEq

namespace Worker

variable {ε : Type}

/-- A new worker. -/
def new (recipient : Int) (period now : Nat) : Worker ε :=
  { recipient, ticker := .after period now }

/-- How many entries wait. -/
def pending (w : Worker ε) : Nat := w.delayed.length + w.immediate.length

/-- Whether the worker is open and no call is under way. -/
def isFree (w : Worker ε) : Bool := !w.closed && w.inHand.isNone

/-- Ends the worker; what waits is dropped. -/
def halt (w : Worker ε) : Worker ε := { w with closed := true }

variable [Deliverable ε]

/-- Hands entries over; a closed worker hands them back. -/
def put (w : Worker ε) (entries : List ε) : Except (List ε) (Worker ε) :=
  if w.closed then .error entries
  else
    .ok { w with
      delayed := w.delayed ++ entries.filter Deliverable.delay
      immediate := w.immediate ++ entries.filter fun e => !Deliverable.delay e }

/-- Starts on an entry; without units there is nothing to do. -/
def hold (w : Worker ε) (e : ε) : Worker ε :=
  { w with inHand := if Deliverable.isDone e then none else some e }

/-- Starts on the first immediate entry. -/
def takeImmediate (w : Worker ε) : Worker ε :=
  match w.immediate with
  | [] => w
  | e :: rest => hold { w with immediate := rest } e

/-- Takes a tick: starts on the first delayed entry, or closes the worker when it has nothing. -/
def tick (w : Worker ε) (now : Nat) : Worker ε :=
  let w := { w with ticker := w.ticker.taken now }
  match w.delayed with
  | e :: rest => hold { w with delayed := rest } e
  | [] => if w.immediate.isEmpty then { w with closed := true } else w

/-- Takes the answer to the call under way. -/
def answer (w : Worker ε) (now : Nat) (outcome : Outcome) : Worker ε :=
  match w.inHand with
  | none => w
  | some e =>
    let (e, wait) := Deliverable.answer e outcome
    if wait = 0 then w.hold e
    else { w with inHand := none, delayed := e :: w.delayed, ticker := w.ticker.postponed now wait }

end Worker

end Courier.Delivery

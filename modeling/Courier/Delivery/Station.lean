import Courier.Delivery.Line.Settle
import Courier.Signal
import Courier.Time.Timed

/-!
A worker by itself, with the signal that ends it.

A `Station` takes entries from the beginning on, but its worker does nothing before it is started;
the first tick comes a period after the start.
-/

namespace Courier.Delivery

open Time

/-- A worker by itself. -/
structure Station (σ π : Type) where
  line : Line σ π
  signal : Signal := {}
  started : Bool := false

namespace Station

variable {σ π : Type}

/-- A station for a recipient. -/
def new (recipient : Int) (period : Nat) (sender : σ) : Station σ π :=
  { line := ⟨.new recipient period 0, none, sender, []⟩ }

/-- Starts the worker. -/
def start (s : Station σ π) (now : Nat) : Station σ π :=
  let w := s.line.worker
  { s with started := true,
           line := { s.line with worker := { w with ticker := .after w.ticker.period now } } }

/-- Hands entries to the worker; also gives those that it hands back. -/
def put (s : Station σ π) (entries : List (Entry π)) : Option (List (Entry π)) × Station σ π :=
  match s.line.worker.put entries with
  | .ok w => (none, { s with line := { s.line with worker := w } })
  | .error rejected => (some rejected, s)

/-- Sets the signal. -/
def setSignal (s : Station σ π) (value : Bool) : Station σ π :=
  { s with signal := s.signal.set value }

/-- Lets go of the signal. -/
def dropSignal (s : Station σ π) : Station σ π := { s with signal := s.signal.drop }

/-- Whether the worker has ended. -/
def ended (s : Station σ π) : Bool :=
  s.started && s.line.worker.closed && s.line.worker.inHand.isNone

instance [Sender σ π] : Timed (Station σ π) where
  settle m s :=
    if s.started then { s with line := s.line.settle s.signal.raised m.elapsed } else s
  next? s := if s.started then s.line.next? else none

end Station

end Courier.Delivery

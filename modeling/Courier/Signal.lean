/-!
The shutdown signal of the background loops.

A signal has a value that can change back and forth, and a holder who may let go of it.  Loops end
when they see it raised: when its value is true, or when nobody is left to set it.
-/

namespace Courier

/-- A signal. -/
structure Signal where
  value : Bool := false
  /-- Whether someone still holds it. -/
  held : Bool := true
deriving DecidableEq

namespace Signal

/-- Whether loops that look at the signal now have to end. -/
def raised (s : Signal) : Bool := s.value || !s.held

/-- Sets the value; a signal that nobody holds keeps its own. -/
def set (s : Signal) (value : Bool) : Signal := if s.held then { s with value } else s

/-- Lets go of the signal. -/
def drop (s : Signal) : Signal := { s with held := false }

@[simp] theorem raised_drop (s : Signal) : s.drop.raised = true := by simp [raised, drop]

end Signal

/-- Someone who waits for a signal; what has been seen raised stays seen. -/
structure Watch where
  signal : Signal
  /-- Whether the signal has been seen raised. -/
  seen : Bool := false
deriving DecidableEq

/-- Looks at the signal. -/
def Watch.look (w : Watch) : Watch := { w with seen := w.seen || w.signal.raised }

end Courier

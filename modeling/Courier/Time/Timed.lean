import Courier.Time.Instant

/-!
Systems that act as time passes.

A `Moment` is a reading of two clocks: one that only runs, in milliseconds, and the wall clock,
which can be set.  `settle` does everything that a system does at one moment, and `next?` names the
reading of the running clock at which it will act again if nothing happens to it before.
`Timed.advance` lets time pass from one such moment to the next, and `Timed.advanceUntil` stops as
soon as the system has got somewhere.  A `Clocked` system comes with the moment that it has reached.
-/

namespace Courier.Time

/-- The running clock and the wall clock. -/
structure Moment where
  /-- The milliseconds that have passed. -/
  elapsed : Nat
  /-- The wall clock. -/
  wall : Instant
deriving DecidableEq

/-- The moment at which the running clock shows a later reading. -/
def Moment.at (m : Moment) (elapsed : Nat) : Moment :=
  ⟨elapsed, m.wall.plusMillis (elapsed - m.elapsed)⟩

/-- The moment some milliseconds later. -/
def Moment.later (m : Moment) (ms : Nat) : Moment := m.at (m.elapsed + ms)

/-- A system that acts by itself. -/
class Timed (σ : Type) where
  /-- The system after all that it does at a moment. -/
  settle : Moment → σ → σ
  /-- The reading of the running clock at which it acts next. -/
  next? : σ → Option Nat

namespace Timed

variable {σ : Type} [Timed σ]

/-- Lets time pass until the running clock shows `stop` or until `done` holds: the system, and the
moment that was reached.  What is due at both ends is done. -/
def advanceUntil (done : σ → Bool) (stop : Nat) (m : Moment) (s : σ) : σ × Moment :=
  let s := settle m s
  if done s then (s, m)
  else
    match next? s with
    | none => (s, m.at stop)
    | some t =>
      if _h : m.elapsed < t ∧ t ≤ stop then advanceUntil done stop (m.at t) s else (s, m.at stop)
termination_by stop - m.elapsed
decreasing_by simp only [Moment.at]; omega

/-- Lets some milliseconds pass. -/
def advance (ms : Nat) (m : Moment) (s : σ) : σ :=
  (advanceUntil (fun _ => false) (m.elapsed + ms) m s).1

end Timed

/-- Either of two systems. -/
instance {σ τ : Type} [Timed σ] [Timed τ] : Timed (σ ⊕ τ) where
  settle m
    | .inl s => .inl (Timed.settle m s)
    | .inr t => .inr (Timed.settle m t)
  next?
    | .inl s => Timed.next? s
    | .inr t => Timed.next? t

/-- A system and the moment that it has reached. -/
structure Clocked (σ : Type) where
  system : σ
  moment : Moment

namespace Clocked

variable {σ : Type}

/-- Does something to the system, which takes no time. -/
def modify (c : Clocked σ) (f : σ → σ) : Clocked σ := { c with system := f c.system }

/-- Lets some milliseconds pass. -/
def pass [Timed σ] (c : Clocked σ) (ms : Nat) : Clocked σ :=
  ⟨Timed.advance ms c.moment c.system, c.moment.later ms⟩

/-- Sets the wall clock. -/
def setWall (c : Clocked σ) (wall : Instant) : Clocked σ :=
  { c with moment := { c.moment with wall } }

end Clocked

/-- The earlier of two readings. -/
def earlier? : Option Nat → Option Nat → Option Nat
  | some a, some b => some (min a b)
  | some a, none => some a
  | none, b => b

/-- The earliest of some readings. -/
def earliest? (readings : List (Option Nat)) : Option Nat := readings.foldr earlier? none

end Courier.Time

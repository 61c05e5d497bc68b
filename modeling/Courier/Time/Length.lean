import Courier.Number.Width
import Courier.Time.Instant

/-!
Instants some seconds later, with every step in the range of its numbers.

A number of seconds becomes a signed length of at most `2^63 - 1` milliseconds.  The length is added
to the time of day, and the days that this fills, a signed 32-bit number, are added to the date.
Where a step leaves its range there is no such instant.
-/

namespace Courier.Time

/-- The whole seconds of the greatest length. -/
def greatestLength : Nat := 9223372036854775

/-- The first representable day. -/
def leastDay : Int := -96465292

/-- The last representable day. -/
def greatestDay : Int := 95026236

/-- An unsigned 64-bit number taken as a signed one. -/
def signed64 (n : Nat) : Int := if n < bound63 then n else (n : Int) - bound64

/-- The length of some seconds, unless it is too great. -/
def length? (seconds : Nat) : Option Int :=
  if greatestLength < seconds then none else some (signed64 seconds)

/-- The day that begins some seconds after the beginning of another one.  The seconds make up whole
days. -/
def dayLater? (day seconds : Int) : Option Int :=
  let days := seconds / daySeconds
  if seconds < -greatestLength ∨ greatestLength < seconds then none
  else if days < -bound31 ∨ bound31 ≤ days then none
  else if day + days < leastDay ∨ greatestDay < day + days then none
  else some (day + days)

namespace Instant

/-- The second of the day and the nanoseconds some seconds later, where the second may lie beyond the
day.  A leap second is left at its start. -/
def clockLater (a : Instant) (seconds : Int) : Int × Nat :=
  let clock := a.seconds % daySeconds
  if ¬a.isLeap ∨ seconds = 0 then (clock + seconds, a.nanos)
  else (clock + (if seconds < 0 then 1 else 0) + seconds, a.nanos - nanosPerSecond)

/-- The instant some seconds later, if it is representable. -/
def later? (a : Instant) (seconds : Int) : Option Instant :=
  let (clock, nanos) := a.clockLater seconds
  (dayLater? a.days (clock - clock % daySeconds)).map fun day =>
    ⟨day * daySeconds + clock % daySeconds, nanos⟩

end Instant

end Courier.Time

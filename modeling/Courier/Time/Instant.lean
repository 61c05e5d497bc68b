import Courier.Time.Date

/-!
Instants of UTC, with nanoseconds and leap seconds.

An instant is a number of seconds since 1970-01-01T00:00:00Z and a number of nanoseconds.  During a
leap second the seconds stand still and the nanoseconds run on from `10^9`.  Instants are ordered by
their seconds, then by their nanoseconds.  Lengths of time are natural numbers of nanoseconds.
-/

namespace Courier.Time

/-- The nanoseconds of a second. -/
def nanosPerSecond : Nat := 1000000000

/-- The nanoseconds of a millisecond. -/
def nanosPerMilli : Nat := 1000000

/-- The seconds of a day. -/
def daySeconds : Int := 86400

/-- An instant: seconds since 1970, and nanoseconds, from `10^9` on during a leap second. -/
structure Instant where
  seconds : Int
  nanos : Nat
deriving DecidableEq

namespace Instant

instance : Inhabited Instant := ⟨⟨0, 0⟩⟩

/-- Instants are ordered by their seconds, then by their nanoseconds. -/
instance : LT Instant :=
  ⟨fun a b => a.seconds < b.seconds ∨ a.seconds = b.seconds ∧ a.nanos < b.nanos⟩

instance : LE Instant :=
  ⟨fun a b => a.seconds < b.seconds ∨ a.seconds = b.seconds ∧ a.nanos ≤ b.nanos⟩

theorem lt_iff {a b : Instant} :
    a < b ↔ a.seconds < b.seconds ∨ a.seconds = b.seconds ∧ a.nanos < b.nanos := Iff.rfl

theorem le_iff {a b : Instant} :
    a ≤ b ↔ a.seconds < b.seconds ∨ a.seconds = b.seconds ∧ a.nanos ≤ b.nanos := Iff.rfl

instance (a b : Instant) : Decidable (a < b) := decidable_of_iff _ lt_iff.symm

instance (a b : Instant) : Decidable (a ≤ b) := decidable_of_iff _ le_iff.symm

/-- The later of two instants. -/
def later (a b : Instant) : Instant := if a ≤ b then b else a

/-- The first representable second: the year -262143. -/
def leastSeconds : Int := -8334601228800

/-- The last representable second: the end of the year 262142. -/
def greatestSeconds : Int := 8210266876799

/-- The last representable instant. -/
def greatest : Instant := ⟨greatestSeconds, 999999999⟩

/-- The instant of a whole second, if it is representable. -/
def ofSeconds? (s : Int) : Option Instant :=
  if leastSeconds ≤ s ∧ s ≤ greatestSeconds then some ⟨s, 0⟩ else none

/-- Whether the instant lies within a leap second. -/
def isLeap (a : Instant) : Bool := nanosPerSecond ≤ a.nanos

/-- The instant a length of time later.  Time that leaves a leap second leaves it at its start. -/
def plus (a : Instant) (nanos : Nat) : Instant :=
  let secs := nanos / nanosPerSecond
  let frac := nanos % nanosPerSecond
  if a.isLeap ∧ secs = 0 ∧ a.nanos + frac < 2 * nanosPerSecond then ⟨a.seconds, a.nanos + frac⟩
  else
    let start := if a.isLeap then a.nanos - nanosPerSecond else a.nanos
    let total := start + frac
    ⟨a.seconds + secs + (total / nanosPerSecond : Nat), total % nanosPerSecond⟩

/-- The instant a number of milliseconds later. -/
def plusMillis (a : Instant) (ms : Nat) : Instant := a.plus (ms * nanosPerMilli)

/-- The instant without its fraction of a second. -/
def truncate (a : Instant) : Instant := ⟨a.seconds, 0⟩

/-- The nanoseconds from `b` to `a`.  A leap second counts when the time of day passes it. -/
def since (a b : Instant) : Int :=
  let timeA := a.seconds % daySeconds
  let timeB := b.seconds % daySeconds
  let leap : Int :=
    if timeA > timeB ∧ b.isLeap then 1 else if timeA < timeB ∧ a.isLeap then -1 else 0
  (a.seconds - b.seconds + leap) * nanosPerSecond + (a.nanos - b.nanos)

/-- The number of the instant's day. -/
def days (a : Instant) : Int := a.seconds / daySeconds

/-- The instant's date. -/
def date (a : Instant) : Date := Date.ofDays a.days

/-- The second of the instant's day; a leap second is part of the second before it. -/
def secondOfDay (a : Instant) : Nat := (a.seconds % daySeconds).toNat

/-- The instant of a date and a time of day. -/
def ofParts (date : Date) (secondOfDay : Nat) (nanos : Nat) : Instant :=
  ⟨date.toDays * daySeconds + secondOfDay, nanos⟩

end Instant

end Courier.Time

import Courier.Cron.Grammar
import Courier.Text.Blank
import Courier.Time.Instant

/-!
Cron schedules and their occurrences.

A `Schedule` is the ascending list of the numbers of every field.  `Schedule.parse` reads it: an
expression of five words is one without seconds, and gets the second 0.  `Schedule.next s a` is the
first whole second after `a` whose parts all belong to their fields; there is none after the year
2100.
-/

namespace Courier.Cron

/-- The numbers of every field, ascending. -/
structure Schedule where
  seconds : List Nat
  minutes : List Nat
  hours : List Nat
  daysOfMonth : List Nat
  months : List Nat
  daysOfWeek : List Nat
  years : List Nat
deriving DecidableEq

/-- Why an expression is not a schedule. -/
inductive ScheduleError
  | empty
  | malformed
deriving DecidableEq

/-- The wording of an error. -/
def ScheduleError.message : ScheduleError → String
  | .empty => "empty expression"
  | .malformed => "<cron>"

namespace Schedule

/-! ### Reading -/

/-- The schedule at the first second of the given hours, days of the month, months and days of the
week. -/
def atStartOf (hours daysOfMonth months daysOfWeek : List Nat) : Schedule :=
  ⟨[0], [0], hours, daysOfMonth, months, daysOfWeek, Unit.year.range⟩

/-- The schedules with a name of their own. -/
def shorthands : List (String × Schedule) :=
  let hours := Unit.hour.range
  let days := Unit.dayOfMonth.range
  let months := Unit.month.range
  let weekdays := Unit.dayOfWeek.range
  [("@yearly", atStartOf [0] [1] [1] weekdays),
   ("@monthly", atStartOf [0] [1] months weekdays),
   ("@weekly", atStartOf [0] days months [1]),
   ("@daily", atStartOf [0] days months weekdays),
   ("@hourly", atStartOf hours days months weekdays)]

/-- Reads six or seven fields. -/
def ofFields? (cs : List Char) : Option Schedule := do
  let (seconds, cs) ← field .second cs
  let (minutes, cs) ← field .minute cs
  let (hours, cs) ← field .hour cs
  let (daysOfMonth, cs) ← field .dayOfMonth cs
  let (months, cs) ← field .month cs
  let (daysOfWeek, cs) ← field .dayOfWeek cs
  let (years, cs) := (field .year cs).getD (Unit.year.range, cs)
  if cs.isEmpty then some ⟨seconds, minutes, hours, daysOfMonth, months, daysOfWeek, years⟩
  else none

/-- Reads a shorthand or fields. -/
def ofText? (s : String) : Option Schedule :=
  (shorthands.lookup s) <|> ofFields? s.toList

/-- The expression with a field for the seconds: five words get the second 0. -/
def widen (s : String) : String :=
  if s.toList.head? ≠ some '@' ∧ (Text.words s).length = 5 then "0 " ++ s else s

/-- Reads a cron expression. -/
def parse (expr : String) : Except ScheduleError Schedule :=
  let s := Text.trim expr
  if s = "" then .error .empty
  else
    match ofText? (widen s) with
    | some schedule => .ok schedule
    | none => .error .malformed

/-! ### Occurrences -/

/-- Whether the schedule has occurrences on a day. -/
def onDay (s : Schedule) (day : Int) : Bool :=
  let d := Time.Date.ofDays day
  s.years.any (fun y => (y : Int) == d.year) && s.months.contains d.month &&
    s.daysOfMonth.contains d.day && s.daysOfWeek.contains (Time.weekday day)

/-- The first second of a day, not before a given one, at which the schedule occurs on its days. -/
def timeFrom? (s : Schedule) (start : Nat) : Option Nat :=
  (s.hours.filter fun h => start < (h + 1) * 3600).findSome? fun h =>
    (s.minutes.filter fun m => start < h * 3600 + (m + 1) * 60).findSome? fun m =>
      (s.seconds.find? fun sec => start ≤ h * 3600 + m * 60 + sec).map fun sec =>
        h * 3600 + m * 60 + sec

/-- The first of `count` days from `day` on that has occurrences. -/
def dayFrom? (s : Schedule) (day : Int) : Nat → Option Int
  | 0 => none
  | count + 1 => if s.onDay day then some day else dayFrom? s (day + 1) count

/-- The last day of the year 2100. -/
def lastDay : Int := (Time.Date.mk 2100 12 31).toDays

/-- The first occurrence on a day after this one. -/
def nextDay (s : Schedule) (day : Int) : Option Time.Instant := do
  let first := max (day + 1) 0
  let time ← s.timeFrom? 0
  let d ← s.dayFrom? first (lastDay + 1 - first).toNat
  return ⟨d * Time.daySeconds + time, 0⟩

/-- The first occurrence after an instant: a whole second, at least one second after the whole
second of the instant.  There is none after the year 2100, nor after instants before the year 0. -/
def next (s : Schedule) (a : Time.Instant) : Option Time.Instant :=
  let start := (a.plus Time.nanosPerSecond).truncate
  if start.date.year < 0 then none
  else
    let today := if s.onDay start.days then s.timeFrom? start.secondOfDay else none
    match today with
    | some time => some ⟨start.days * Time.daySeconds + time, 0⟩
    | none => s.nextDay start.days

/-- The first occurrences after an instant, at most so many. -/
def occurrences (s : Schedule) (a : Time.Instant) : (count : Nat) → List Time.Instant
  | 0 => []
  | count + 1 =>
    match s.next a with
    | none => []
    | some b => b :: s.occurrences b count

/-- The first occurrence, and those after it. -/
theorem occurrences_of_some {s : Schedule} {a b : Time.Instant} (h : s.next a = some b)
    (count : Nat) : s.occurrences a (count + 1) = b :: s.occurrences b count := by
  show (match s.next a with
    | none => []
    | some b => b :: s.occurrences b count) = _
  rw [h]

theorem occurrences_of_none {s : Schedule} {a : Time.Instant} (h : s.next a = none)
    (count : Nat) : s.occurrences a count = [] := by
  cases count with
  | zero => rfl
  | succ count =>
    show (match s.next a with
      | none => []
      | some b => b :: s.occurrences b count) = _
    rw [h]

end Schedule

end Courier.Cron

/-!
The fields of a cron schedule.

Each field belongs to a `Unit` of the calendar with a least and a greatest number and, for months
and days of the week, names.  A field is a list of `Item`s; an item denotes a `Steps`: the numbers
from a first to a last one, in steps.  `ordinals?` is the ascending list of the numbers that a field
denotes.
-/

namespace Courier.Cron

/-- What the numbers of a field count. -/
inductive Unit
  | second
  | minute
  | hour
  | dayOfMonth
  | month
  /-- One for Sunday to seven for Saturday. -/
  | dayOfWeek
  | year
deriving DecidableEq

namespace Unit

/-- The least number of a field. -/
def least : Unit → Nat
  | second | minute | hour => 0
  | dayOfMonth | month | dayOfWeek => 1
  | year => 1970

/-- The greatest number of a field. -/
def greatest : Unit → Nat
  | second | minute => 59
  | hour => 23
  | dayOfMonth => 31
  | month => 12
  | dayOfWeek => 7
  | year => 2100

/-- All numbers of a field. -/
def range (u : Unit) : List Nat := List.range' u.least (u.greatest + 1 - u.least)

/-- The names of a field's numbers, in lower case. -/
def names : Unit → List (Nat × List String)
  | month =>
    [(1, ["jan", "january"]), (2, ["feb", "february"]), (3, ["mar", "march"]),
     (4, ["apr", "april"]), (5, ["may"]), (6, ["jun", "june"]), (7, ["jul", "july"]),
     (8, ["aug", "august"]), (9, ["sep", "september"]), (10, ["oct", "october"]),
     (11, ["nov", "november"]), (12, ["dec", "december"])]
  | dayOfWeek =>
    [(1, ["sun", "sunday"]), (2, ["mon", "monday"]), (3, ["tue", "tues", "tuesday"]),
     (4, ["wed", "wednesday"]), (5, ["thu", "thurs", "thursday"]), (6, ["fri", "friday"]),
     (7, ["sat", "saturday"])]
  | _ => []

/-- The number of a name, in any case of letters. -/
def ofName? (u : Unit) (name : String) : Option Nat :=
  let lower := String.ofList (name.toList.map Char.toLower)
  (u.names.find? fun p => p.2.contains lower).map Prod.fst

/-- Whether days of this field may be left open with a question mark. -/
def mayBeOpen : Unit → Bool
  | dayOfMonth | dayOfWeek => true
  | _ => false

end Unit

/-- A stretch of a field. -/
inductive Span
  | all
  | point (n : Nat)
  | range (first last : Nat)
  | named (first last : String)
deriving DecidableEq

/-- A part of a field between commas. -/
inductive Item
  | plain (span : Span)
  | stepped (span : Span) (step : Nat)
  | word (w : String)
deriving DecidableEq

/-- The numbers `first`, `first + step`, … up to `last`. -/
structure Steps where
  first : Nat
  last : Nat
  step : Nat
deriving DecidableEq

/-- Whether a number is one of the steps. -/
def Steps.holds (s : Steps) (n : Nat) : Bool :=
  s.first ≤ n && n ≤ s.last && (n - s.first) % s.step == 0

/-- The stretch between two numbers of a field, the first not above the second. -/
def between? (u : Unit) (first last : Nat) : Option (Nat × Nat) :=
  if u.least ≤ first ∧ first ≤ last ∧ last ≤ u.greatest then some (first, last) else none

/-- The least and the greatest number of a stretch; none if it leaves the field or descends. -/
def Span.bounds? (u : Unit) : Span → Option (Nat × Nat)
  | .all => some (u.least, u.greatest)
  | .point n => between? u n n
  | .range first last => between? u first last
  | .named first last => do between? u (← u.ofName? first) (← u.ofName? last)

/-- The steps of an item.  A single number with a step runs to the end of the field, and the step
may not exceed the field's greatest number. -/
def Item.steps? (u : Unit) : Item → Option Steps
  | .plain span => do
    let (first, last) ← span.bounds? u
    return ⟨first, last, 1⟩
  | .stepped span step =>
    if 1 ≤ step ∧ step ≤ u.greatest then do
      let (first, last) ← span.bounds? u
      match span with
      | .point _ => return ⟨first, u.greatest, step⟩
      | _ => return ⟨first, last, step⟩
    else none
  | .word w => do
    let n ← u.ofName? w
    return ⟨n, n, 1⟩

/-- The numbers that a field denotes, ascending; none if one of its items is not one of the
field's. -/
def ordinals? (u : Unit) (items : List Item) : Option (List Nat) := do
  let steps ← items.mapM (Item.steps? u)
  return u.range.filter fun n => steps.any fun s => s.holds n

end Courier.Cron

import Courier.Time.Instant
import Courier.Text.Blank

/-!
Timestamps: the RFC 3339 texts of instants.

There are three written forms (`Instant.text` with as few fraction digits as are exact in threes,
`Instant.stored` with nine, `Instant.dateText` for the date alone) and two readers.
`Timestamp.strict?` takes the exact form, with any offset; `Timestamp.lenient?` also takes short
numbers, a sign before the year, blanks between the parts and `UTC` for the offset.
-/

namespace Courier.Time

/-! ### Writing -/

/-- A number with zeros in front up to a width. -/
def padded (width : Nat) (n : Nat) : String :=
  let s := toString n
  String.ofList (List.replicate (width - s.length) '0') ++ s

/-- A year: four digits up to 9999, else a sign and at least four digits. -/
def yearText (y : Int) : String :=
  if 0 ≤ y ∧ y ≤ 9999 then padded 4 y.toNat
  else (if y < 0 then "-" else "+") ++ padded 4 y.natAbs

/-- The date, as `year-month-day`. -/
def Date.text (d : Date) : String :=
  yearText d.year ++ "-" ++ padded 2 d.month ++ "-" ++ padded 2 d.day

namespace Instant

/-- The date of the instant. -/
def dateText (a : Instant) : String := a.date.text

/-- Hours, minutes and seconds with colons; the second of a leap second is 60. -/
def clockText (a : Instant) : String :=
  let s := a.secondOfDay
  padded 2 (s / 3600) ++ ":" ++ padded 2 (s / 60 % 60) ++ ":" ++
    padded 2 (s % 60 + (if a.isLeap then 1 else 0))

/-- The nanoseconds within the second that is shown. -/
def fraction (a : Instant) : Nat := a.nanos % nanosPerSecond

/-- A point and 3, 6 or 9 digits, the fewest that are exact; nothing for a whole second. -/
def fractionText (a : Instant) : String :=
  let f := a.fraction
  if f = 0 then ""
  else if f % 1000000 = 0 then "." ++ padded 3 (f / 1000000)
  else if f % 1000 = 0 then "." ++ padded 6 (f / 1000)
  else "." ++ padded 9 f

/-- The text of an instant in data. -/
def text (a : Instant) : String := a.dateText ++ "T" ++ a.clockText ++ a.fractionText ++ "Z"

/-- The text of an instant in the catalog, where texts of years 0 to 9999 sort as their instants. -/
def stored (a : Instant) : String :=
  a.dateText ++ "T" ++ a.clockText ++ "." ++ padded 9 a.fraction ++ "Z"

/-- Date and time for readers, to the second. -/
def plainText (a : Instant) : String := a.dateText ++ " " ++ a.clockText

end Instant

/-! ### Reading -/

namespace Timestamp

/-- What a reader of a part gives: the part and the rest of the text. -/
abbrev Part (α : Type) := List Char → Option (α × List Char)

/-- The value of a decimal digit. -/
def digit? (c : Char) : Option Nat :=
  if '0' ≤ c ∧ c ≤ '9' then some (c.toNat - '0'.toNat) else none

/-- Takes at most `limit` digits off the front: their value, their number and the rest. -/
def takeDigits : (limit : Nat) → (value count : Nat) → List Char → Nat × Nat × List Char
  | 0, value, count, cs => (value, count, cs)
  | _ + 1, value, count, [] => (value, count, [])
  | limit + 1, value, count, c :: cs =>
    match digit? c with
    | some d => takeDigits limit (10 * value + d) (count + 1) cs
    | none => (value, count, c :: cs)

/-- A number of `least` to `most` digits. -/
def number (least most : Nat) : Part Nat := fun cs =>
  let (value, count, rest) := takeDigits most 0 0 cs
  if least ≤ count then some (value, rest) else none

/-- One given character. -/
def char (c : Char) : Part Unit
  | d :: cs => if c = d then some ((), cs) else none
  | [] => none

/-- The letter or blank between date and time. -/
def separator : Part Unit
  | c :: cs => if c = 't' ∨ c = 'T' ∨ c = ' ' then some ((), cs) else none
  | [] => none

/-- Removes blanks. -/
def skipBlanks (cs : List Char) : List Char := cs.dropWhile Text.isBlank

/-- A point and a fraction of a second in nanoseconds, or nothing; digits after the ninth are cut
off. -/
def fraction : Part Nat
  | '.' :: cs =>
    let (value, count, rest) := takeDigits 9 0 0 cs
    if count = 0 then none
    else some (value * Nat.pow 10 (9 - count), rest.dropWhile fun c => (digit? c).isSome)
  | cs => some (0, cs)

/-- The sign of an offset: minus is also written as the mathematical sign. -/
def offsetSign : Part Int
  | '+' :: cs => some (1, cs)
  | '-' :: cs | '−' :: cs => some (-1, cs)
  | _ => none

/-- An offset from UTC in seconds: `Z`, or hours and minutes with what `between` accepts between
them. -/
def offset (between : List Char → Option (List Char)) : Part Int
  | 'Z' :: cs | 'z' :: cs => some (0, cs)
  | cs => do
    let (sign, cs) ← offsetSign cs
    let (hours, cs) ← number 2 2 cs
    let cs ← between cs
    let (minutes, cs) ← number 2 2 cs
    if minutes < 60 then some (sign * (hours * 3600 + minutes * 60 : Nat), cs) else none

/-- The parts of a timestamp as written. -/
structure Parts where
  year : Int
  month : Nat
  day : Nat
  hour : Nat
  minute : Nat
  second : Nat
  nanos : Nat
  offset : Int

/-- The instant of parts that exist in the calendar and lie in the representable range; a second 60
is a leap second. -/
def Parts.instant? (p : Parts) : Option Instant :=
  let date : Date := ⟨p.year, p.month, p.day⟩
  if ¬ date.Valid ∨ p.hour > 23 ∨ p.minute > 59 ∨ p.second > 60 then none
  else if p.year < -262143 ∨ 262142 < p.year then none
  else if p.offset ≤ -daySeconds ∨ daySeconds ≤ p.offset then none
  else
    let leap := p.second = 60
    let sod := p.hour * 3600 + p.minute * 60 + (if leap then 59 else p.second)
    let a := Instant.ofParts date sod (p.nanos + if leap then nanosPerSecond else 0)
    let s := a.seconds - p.offset
    if Instant.leastSeconds ≤ s ∧ s ≤ Instant.greatestSeconds then some { a with seconds := s }
    else none

/-- Reads the exact form: four digits for the year, two for every other part, any number for the
fraction, and an offset with a colon. -/
def strict? (s : String) : Option Instant := do
  let (year, cs) ← number 4 4 s.toList
  let (_, cs) ← char '-' cs
  let (month, cs) ← number 2 2 cs
  let (_, cs) ← char '-' cs
  let (day, cs) ← number 2 2 cs
  let (_, cs) ← separator cs
  let (hour, cs) ← number 2 2 cs
  let (_, cs) ← char ':' cs
  let (minute, cs) ← number 2 2 cs
  let (_, cs) ← char ':' cs
  let (second, cs) ← number 2 2 cs
  let (nanos, cs) ← fraction cs
  let (offset, cs) ← offset (fun cs => (char ':' cs).map Prod.snd) cs
  if cs.isEmpty then (Parts.mk year month day hour minute second nanos offset).instant? else none

/-- A year: one to four digits, or a sign and any number of digits. -/
def signedYear : Part Int := fun cs =>
  match skipBlanks cs with
  | '-' :: cs => (number 1 cs.length cs).map fun (n, r) => (-(n : Int), r)
  | '+' :: cs => (number 1 cs.length cs).map fun (n, r) => ((n : Int), r)
  | cs => (number 1 4 cs).map fun (n, r) => ((n : Int), r)

/-- A number of one or two digits after blanks. -/
def shortNumber : Part Nat := fun cs => number 1 2 (skipBlanks cs)

/-- One given character after blanks. -/
def spacedChar (c : Char) : Part Unit := fun cs => char c (skipBlanks cs)

/-- `UTC` in any case, or an offset with colons and blanks, or nothing, between hours and
minutes. -/
def lenientOffset : Part Int := fun cs =>
  match cs with
  | u :: t :: c :: rest =>
    if u.toLower = 'u' ∧ t.toLower = 't' ∧ c.toLower = 'c' then some (0, rest)
    else offset (fun cs => some (cs.dropWhile fun c => c = ':' ∨ Text.isBlank c)) cs
  | cs => offset (fun cs => some (cs.dropWhile fun c => c = ':' ∨ Text.isBlank c)) cs

/-- Reads the loose form: short numbers, and blanks between the parts. -/
def lenient? (s : String) : Option Instant := do
  let (year, cs) ← signedYear s.toList
  let (_, cs) ← spacedChar '-' cs
  let (month, cs) ← shortNumber cs
  let (_, cs) ← spacedChar '-' cs
  let (day, cs) ← shortNumber cs
  let (_, cs) ← separator cs
  let (hour, cs) ← shortNumber cs
  let (_, cs) ← spacedChar ':' cs
  let (minute, cs) ← shortNumber cs
  let (_, cs) ← spacedChar ':' cs
  let (second, cs) ← shortNumber cs
  let (nanos, cs) ← fraction cs
  let (offset, cs) ← lenientOffset (skipBlanks cs)
  if (skipBlanks cs).isEmpty then
    (Parts.mk year month day hour minute second nanos offset).instant?
  else none

end Timestamp

end Courier.Time

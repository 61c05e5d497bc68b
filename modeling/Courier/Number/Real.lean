import Courier.Number.Decimal

/-!
Floating-point numbers as they are written in settings: decimals, infinities and not-a-number.

`Real.ofDigits` gives the double nearest to a decimal.
-/

namespace Courier

/-- A floating-point number. -/
inductive Real
  | finite (x : Binary64)
  | infinite (negative : Bool)
  | notANumber
deriving DecidableEq

namespace Real

/-- The text of a number in messages. -/
def text : Real → String
  | finite x => x.plain
  | infinite negative => if negative then "-inf" else "inf"
  | notANumber => "NaN"

/-- The double nearest to `digits * 10^exponent`, with a sign; infinite beyond the largest one. -/
def ofDigits (negative : Bool) (digits : Nat) (exponent : Int) : Real :=
  let signed (x : Binary64) : Real := finite (if negative then x.neg else x)
  let magnitude : Int := (toString digits).length + exponent
  if digits = 0 ∨ magnitude < -330 then signed .zero
  else if magnitude > 310 then infinite negative
  else
    let nearest :=
      if 0 ≤ exponent then Binary64.ofRatio (digits * Nat.pow 10 exponent.toNat) 1
      else Binary64.ofRatio digits (Nat.pow 10 (-exponent).toNat)
    match nearest with
    | some x => signed x
    | none => infinite negative

/-- The value of decimal digits. -/
def value (digits : List Char) : Nat := digits.foldl (fun n c => 10 * n + (c.toNat - '0'.toNat)) 0

/-- A sign at the front of a text, and the rest. -/
def sign : List Char → Bool × List Char
  | '+' :: cs => (false, cs)
  | '-' :: cs => (true, cs)
  | cs => (false, cs)

/-- The exponent that a text consists of, if it is one or empty. -/
def exponent? : List Char → Option Int
  | [] => some 0
  | e :: cs =>
    if e = 'e' ∨ e = 'E' then
      let (negative, digits) := sign cs
      if digits.isEmpty ∨ !digits.all Char.isDigit then none
      else some (if negative then -(value digits : Int) else value digits)
    else none

/-- Reads a decimal: digits before or after a point, and perhaps a sign and an exponent. -/
def ofDecimal? (cs : List Char) : Option Real := do
  let (negative, cs) := sign cs
  let whole := cs.takeWhile Char.isDigit
  let cs := cs.dropWhile Char.isDigit
  let (fraction, cs) := match cs with
    | '.' :: cs => (cs.takeWhile Char.isDigit, cs.dropWhile Char.isDigit)
    | cs => ([], cs)
  if whole.isEmpty ∧ fraction.isEmpty then none
  else
    let e ← exponent? cs
    return ofDigits negative (value (whole ++ fraction)) (e - fraction.length)

end Real

end Courier

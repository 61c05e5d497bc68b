import Courier.Number.Binary64

/-!
The decimal text of a double: the fewest digits that read back, and of those the nearest.

`Binary64.shortest x` is a pair of a digit string `d` and an exponent `k` with `d * 10^k` in the
interval of reals that round to `x` (its ends count exactly when the significand of `x` is even).
It is found by trying one digit, two digits, and so on; of two hits on one grid the nearer one wins,
and a tie goes to the even digit.
-/

namespace Courier

namespace Binary64

/-- The interval of reals that round to a positive double, over one denominator: numerator of the
lower end, of the value, of the upper end, and the denominator. -/
structure Interval where
  low : Nat
  value : Nat
  high : Nat
  den : Nat
  closed : Bool

/-- The interval of reals that round to `x`; the gap below a power of two is half as wide. -/
def interval (x : Binary64) : Interval :=
  let narrow := x.significand = leastNormal ∧ x.exponent > leastExponent
  let low := if narrow then 4 * x.significand - 1 else 4 * x.significand - 2
  let value := 4 * x.significand
  let high := 4 * x.significand + 2
  let closed := x.significand % 2 == 0
  if 0 ≤ x.exponent then
    let s := Nat.pow 2 x.exponent.toNat
    ⟨low * s, value * s, high * s, 4, closed⟩
  else ⟨low, value, high, 4 * Nat.pow 2 (-x.exponent).toNat, closed⟩

/-- The interval with every number divided by `10^k`. -/
def Interval.onGrid (i : Interval) (k : Int) : Interval :=
  if 0 ≤ k then { i with den := i.den * Nat.pow 10 k.toNat }
  else
    let s := Nat.pow 10 (-k).toNat
    ⟨i.low * s, i.value * s, i.high * s, i.den, i.closed⟩

/-- Whether the whole number `d` lies in the interval. -/
def Interval.holds (i : Interval) (d : Nat) : Bool :=
  if i.closed then i.low ≤ d * i.den && d * i.den ≤ i.high
  else i.low < d * i.den && d * i.den < i.high

/-- The whole number in the interval that is nearest to the value, if there is one among its two
neighbours. -/
def Interval.nearest (i : Interval) : Option Nat :=
  let below := i.value / i.den
  let above := below + 1
  let r := i.value % i.den
  match i.holds below, i.holds above with
  | true, true =>
    if 2 * r < i.den ∨ (2 * r = i.den ∧ below % 2 = 0) then some below else some above
  | true, false => some below
  | false, true => some above
  | false, false => none

/-- The number of decimal digits of the whole part of `num / den`, less one; negative for fractions
below one. -/
def decimalMagnitude (num den : Nat) : Int :=
  if den ≤ num then ((toString (num / den)).length : Int) - 1
  else
    -- the position of the first digit after the point that is not zero
    let guess := (toString (den / num)).length
    if den ≤ num * Nat.pow 10 (guess - 1) then -((guess : Int) - 1) else -(guess : Int)

/-- Tries the grids of `digits` more and more significant digits. -/
def shortestFrom (i : Interval) (magnitude : Int) (digits : Nat) : Nat → Nat × Int
  | 0 => (i.value, 0)
  | tries + 1 =>
    let k := magnitude - (digits : Int) + 1
    match (i.onGrid k).nearest with
    | some d => (d, k)
    | none => shortestFrom i magnitude (digits + 1) tries

/-- Removes trailing zeros from the digits. -/
def stripZeros (d : Nat) (k : Int) : Nat → Nat × Int
  | 0 => (d, k)
  | n + 1 => if d ≠ 0 ∧ d % 10 = 0 then stripZeros (d / 10) (k + 1) n else (d, k)

/-- The shortest decimal that reads back as the magnitude of `x`: digits and power of ten. -/
def shortest (x : Binary64) : Nat × Int :=
  if x.isZero then (0, 0)
  else
    let i := x.interval
    let (d, k) := shortestFrom i (decimalMagnitude i.value i.den) 1 17
    stripZeros d k 20

end Binary64

/-! ### Two ways to place the point -/

/-- `n` zeros. -/
private def zeros (n : Nat) : String := String.ofList (List.replicate n '0')

/-- Digits and power of ten in positional notation, with at least `places` digits after the
point. -/
def positional (digits : String) (k : Int) (places : Nat) : String :=
  let size : Int := digits.length
  let point := size + k
  if 0 ≤ k then
    digits ++ zeros k.toNat ++ (if places = 0 then "" else "." ++ zeros places)
  else if 0 < point then
    String.ofList (digits.toList.take point.toNat) ++ "." ++
      String.ofList (digits.toList.drop point.toNat)
  else "0." ++ zeros (-point).toNat ++ digits

/-- The plain text: positional at every magnitude, with a point only where digits follow it. -/
def Binary64.plain (x : Binary64) : String :=
  let (d, k) := x.shortest
  (if x.negative then "-" else "") ++ positional (toString d) k 0

/-- The text in data: positional from `10^-5` up to below `10^16`, else with a signed exponent;
a point or an exponent is always written. -/
def Binary64.text (x : Binary64) : String :=
  let (d, k) := x.shortest
  let digits := toString d
  let point : Int := digits.length + k
  let body :=
    if x.isZero then "0.0"
    else if -5 < point ∧ point ≤ 16 then positional digits k 1
    else
      let mantissa :=
        if digits.length = 1 then digits
        else String.ofList (digits.toList.take 1) ++ "." ++ String.ofList (digits.toList.drop 1)
      let e := point - 1
      mantissa ++ "e" ++ (if e < 0 then "-" else "+") ++ toString e.natAbs
  (if x.negative then "-" else "") ++ body

end Courier

/-!
Double-precision numbers as exact fractions.

A finite binary64 number is a sign, a significand below `2^53` and a power of two.  Every operation
here is exact arithmetic on natural numbers followed by one rounding, `Binary64.ofRatio`: to the
nearest representable number, a half going to the even significand, and `none` beyond the largest
finite one.
-/

namespace Courier

/-- A finite double: `(-1)^negative * significand * 2^exponent`. -/
structure Binary64 where
  negative : Bool
  significand : Nat
  exponent : Int
deriving DecidableEq

namespace Binary64

/-- The smallest power of two that a double can have; subnormal numbers and zero use it. -/
def leastExponent : Int := -1074

/-- The largest power of two that a double can have. -/
def greatestExponent : Int := 971

/-- The smallest significand of 53 bits. -/
def leastNormal : Nat := 4503599627370496

theorem leastNormal_eq : leastNormal = Nat.pow 2 52 := rfl

/-- Positive zero. -/
def zero : Binary64 := ⟨false, 0, leastExponent⟩

/-- Whether the number is zero, of either sign. -/
def isZero (x : Binary64) : Bool := x.significand == 0

/-- The number with its sign turned. -/
def neg (x : Binary64) : Binary64 := { x with negative := !x.negative }

@[simp] theorem neg_neg (x : Binary64) : x.neg.neg = x := by
  cases x; simp [neg]

/-! ### Rounding -/

/-- The quotient rounded to the nearest natural number, a half to the even one. -/
def roundHalfEven (num den : Nat) : Nat :=
  let q := num / den
  let r := num % den
  if 2 * r > den ∨ (2 * r = den ∧ q % 2 = 1) then q + 1 else q

/-- `num / den` divided by `2^e`, rounded. -/
def scaledQuotient (num den : Nat) (e : Int) : Nat :=
  if 0 ≤ e then roundHalfEven num (den * Nat.pow 2 e.toNat)
  else roundHalfEven (num * Nat.pow 2 (-e).toNat) den

/-- The exponent at which `num / den` has a significand of 53 bits, or the least exponent. -/
def exponentFor (num den : Nat) : Int :=
  let guess : Int := (Nat.log2 num : Int) - (Nat.log2 den : Int) - 52
  let below :=
    if 0 ≤ guess then num < den * Nat.pow 2 guess.toNat * leastNormal
    else num * Nat.pow 2 (-guess).toNat < den * leastNormal
  max leastExponent (if below then guess - 1 else guess)

/-- The double nearest to `num / den`, or `none` if that is beyond the largest finite one. -/
def ofRatio (num den : Nat) : Option Binary64 :=
  if num = 0 then some zero
  else
    let e := exponentFor num den
    let m := scaledQuotient num den e
    -- rounding up may carry into one more bit
    let (m, e) := if m = 2 * leastNormal then (leastNormal, e + 1) else (m, e)
    if e > greatestExponent then none else some ⟨false, m, e⟩

/-- The double nearest to a natural number that is small enough to have one. -/
def ofNat (n : Nat) : Binary64 := (ofRatio n 1).getD zero

/-- The power of ten `10^k` as a double, for `k` up to 308. -/
def powerOfTen (k : Nat) : Binary64 := ofNat (Nat.pow 10 k)

/-- Numerator and denominator of the magnitude. -/
def ratio (x : Binary64) : Nat × Nat :=
  if 0 ≤ x.exponent then (x.significand * Nat.pow 2 x.exponent.toNat, 1)
  else (x.significand, Nat.pow 2 (-x.exponent).toNat)

/-- The rounded product of two magnitudes. -/
def mul (x y : Binary64) : Option Binary64 :=
  let (a, b) := x.ratio
  let (c, d) := y.ratio
  ofRatio (a * c) (b * d)

/-- The rounded quotient of two magnitudes, the second not zero. -/
def div (x y : Binary64) : Option Binary64 :=
  let (a, b) := x.ratio
  let (c, d) := y.ratio
  ofRatio (a * d) (b * c)

/-- `n` rounded divisions by `10^308`; a magnitude that has become zero stays so. -/
def descend (x : Binary64) : Nat → Binary64
  | 0 => x
  | n + 1 => if x.isZero then x else descend ((x.div (powerOfTen 308)).getD zero) n

/-- Scales by `10^e`: one rounded multiplication or division when `|e| ≤ 308`; below that range,
divisions by `10^308` come first.  `none` when the result would not be finite. -/
def scaleByTen (x : Binary64) (e : Int) : Option Binary64 :=
  if x.isZero then some x
  else if 0 ≤ e then
    if e ≤ 308 then x.mul (powerOfTen e.natAbs) else none
  else
    let rounds := (e.natAbs - 1) / 308
    let y := descend x rounds
    if y.isZero then some y else y.div (powerOfTen (e.natAbs - 308 * rounds))

end Binary64

end Courier

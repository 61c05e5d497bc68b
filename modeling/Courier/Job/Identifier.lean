import Courier.Json.Printer

/-!
Identifiers that sort by the time at which they were made.

An identifier is 128 bits, written as hexadecimal digits in five groups: 48 bits of milliseconds
since 1970, the version, 12 random bits, the variant and 62 random bits.
-/

namespace Courier.Identifier

/-- The last `count` hexadecimal digits of a number. -/
def hexDigits : (count : Nat) → Nat → List Char
  | 0, _ => []
  | count + 1, n => hexDigits count (n / 16) ++ [Json.hexDigit (n % 16)]

@[simp] theorem length_hexDigits (count n : Nat) : (hexDigits count n).length = count := by
  induction count generalizing n with
  | zero => rfl
  | succ count ih => simp [hexDigits, ih]

/-- The number whose bits are milliseconds, version, variant and random bits. -/
def number (millis random : Nat) : Nat :=
  let bits (n : Nat) := Nat.pow 2 n
  (millis % bits 48) * bits 80 + 7 * bits 76 + (random / bits 62 % bits 12) * bits 64 + bits 63 +
    random % bits 62

/-- The lengths of the groups. -/
def groups : List Nat := [8, 4, 4, 4, 12]

/-- Cuts digits into groups with dashes between them. -/
def dashed : List Nat → List Char → List Char
  | [], _ => []
  | [n], cs => cs.take n
  | n :: ns, cs => cs.take n ++ '-' :: dashed ns (cs.drop n)

/-- An identifier. -/
def make (millis random : Nat) : String :=
  String.ofList (dashed groups (hexDigits 32 (number millis random)))

end Courier.Identifier

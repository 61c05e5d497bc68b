/-!
Bounds of numbers of fixed width.

They are written out, so that arithmetic on them needs no powers.
-/

namespace Courier

/-- Signed numbers of 32 bits are those below this one and not below its opposite. -/
abbrev bound31 : Nat := 2147483648

/-- Numbers of 32 bits are those below this one. -/
abbrev bound32 : Nat := 4294967296

/-- Signed numbers of 64 bits are those below this one and not below its opposite. -/
abbrev bound63 : Nat := 9223372036854775808

/-- Numbers of 64 bits are those below this one. -/
abbrev bound64 : Nat := 18446744073709551616

theorem bound31_eq : bound31 = Nat.pow 2 31 := rfl

theorem bound32_eq : bound32 = Nat.pow 2 32 := rfl

theorem bound63_eq : bound63 = Nat.pow 2 63 := rfl

theorem bound64_eq : bound64 = Nat.pow 2 64 := rfl

end Courier

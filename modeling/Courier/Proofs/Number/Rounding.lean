import Courier.Number.Binary64
import Courier.Number.Width
import Mathlib.Algebra.Order.Field.Power
import Mathlib.Algebra.Order.Field.Rat
import Mathlib.Data.Nat.Cast.Order.Field
import Mathlib.Tactic.FieldSimp
import Mathlib.Tactic.Linarith
import Mathlib.Tactic.NormNum
import Mathlib.Tactic.Positivity
import Mathlib.Tactic.Ring

/-!
Doubles as approximations of rational numbers.

The `magnitude` of a double is a rational number.  A quotient of natural numbers is rounded to a
canonical double that is off by at most half of its last place (`RoundsTo`), unless it is so large
that there is no such double (`overflow`); arithmetic on doubles rounds the exact result.

Rounding looks for an exponent at which the quotient has 53 bits.  A guess from the bits of the two
numbers is right or one too large (`guess_bounds`), so one comparison decides it
(`exponentFor_spec`).  There the quotient is rounded to a whole number (`roundHalfEven_near`), which
may carry into one bit more.  At the least exponent there may be fewer bits, and then the error is
up to half of the least double; this is why `RoundsTo` has the greater of two bounds.  For numbers
from one on the first of them is the greater one, so that factors of `1 + 1 / (2 * leastNormal)`
bound the errors of several steps.

Powers of ten are rounded, too, so scaling by one makes two errors: that of the power and that of
the product.  Scaling down cannot fail, whatever the number of divisions (`Canonical.descend`).

Main statements: rounding succeeds just below the overflow and is as near as that (`ofRatio_cases`),
and scaling by a power of ten gives a double whenever the exact result is some way below the
overflow (`Canonical.exists_scaleByTen`, `exists_scaleByTen_ofNat`).
-/

namespace Courier

/-! ### Powers -/

section Powers

variable (b : ℕ) {e : ℤ}

theorem zpow_of_nonneg (h : 0 ≤ e) : (b : ℚ) ^ e = (Nat.pow b e.toNat : ℕ) := by
  obtain ⟨n, rfl⟩ := Int.eq_ofNat_of_zero_le h
  simp

theorem zpow_of_neg (h : ¬ 0 ≤ e) : (b : ℚ) ^ e = ((Nat.pow b (-e).toNat : ℕ) : ℚ)⁻¹ := by
  rw [← zpow_of_nonneg b (by omega : 0 ≤ -e), zpow_neg, inv_inv]

theorem two_zpow_of_nonneg (h : 0 ≤ e) : (2 : ℚ) ^ e = (Nat.pow 2 e.toNat : ℕ) :=
  zpow_of_nonneg 2 h

theorem two_zpow_of_neg (h : ¬ 0 ≤ e) : (2 : ℚ) ^ e = ((Nat.pow 2 (-e).toNat : ℕ) : ℚ)⁻¹ :=
  zpow_of_neg 2 h

end Powers

namespace Binary64

/-! ### Magnitudes -/

/-- The magnitude of a double. -/
def magnitude (x : Binary64) : ℚ := x.significand * 2 ^ x.exponent

/-- Whether a double is in the form that rounding gives it: significand and exponent are in range,
and the significand has 53 bits unless the exponent is the least one. -/
structure Canonical (x : Binary64) : Prop where
  significand_lt : x.significand < 2 * leastNormal
  least_le : leastExponent ≤ x.exponent
  le_greatest : x.exponent ≤ greatestExponent
  normal : leastExponent < x.exponent → leastNormal ≤ x.significand

instance (x : Binary64) : Decidable x.Canonical :=
  decidable_of_iff (x.significand < 2 * leastNormal ∧ leastExponent ≤ x.exponent ∧
      x.exponent ≤ greatestExponent ∧ (leastExponent < x.exponent → leastNormal ≤ x.significand))
    ⟨fun ⟨a, b, c, d⟩ => ⟨a, b, c, d⟩, fun ⟨a, b, c, d⟩ => ⟨a, b, c, d⟩⟩

theorem Canonical.neg {x : Binary64} (h : x.Canonical) : x.neg.Canonical :=
  ⟨h.significand_lt, h.least_le, h.le_greatest, h.normal⟩

theorem canonical_zero : zero.Canonical := by decide

/-- The middle between the greatest double and the next power of two: what is below it rounds to a
double. -/
def overflow : ℚ := (2 * leastNormal - 1 / 2) * 2 ^ greatestExponent

theorem magnitude_nonneg (x : Binary64) : 0 ≤ x.magnitude := by
  unfold magnitude
  positivity

theorem ratio_pos (x : Binary64) : 0 < x.ratio.2 := by
  unfold ratio
  split
  · exact Nat.one_pos
  · exact Nat.pow_pos (by decide)

/-- Numerator and denominator are those of the magnitude. -/
theorem ratio_eq (x : Binary64) : (x.ratio.1 : ℚ) / x.ratio.2 = x.magnitude := by
  unfold ratio magnitude
  split
  · rename_i h
    rw [two_zpow_of_nonneg h]
    simp
  · rename_i h
    rw [two_zpow_of_neg h]
    rfl

/-! ### Rounding to whole numbers -/

/-- Rounding moves a quotient by a half at most. -/
theorem roundHalfEven_near (num : ℕ) {den : ℕ} (hden : 0 < den) :
    |(roundHalfEven num den : ℚ) - num / den| ≤ 1 / 2 := by
  have hpos : (0 : ℚ) < den := by exact_mod_cast hden
  have hnum : (den : ℚ) * (num / den : ℕ) + (num % den : ℕ) = num := by
    exact_mod_cast Nat.div_add_mod num den
  have hquotient : (num : ℚ) / den = (num / den : ℕ) + (num % den : ℕ) / den := by
    field_simp
    linarith
  have hrest : ((num % den : ℕ) : ℚ) / den < 1 := by
    rw [div_lt_one hpos]
    exact_mod_cast Nat.mod_lt num hden
  have hrest' : (0 : ℚ) ≤ (num % den : ℕ) / den := by positivity
  rw [hquotient, abs_le]
  simp only [roundHalfEven]
  -- rounded up, the rest is at least a half; rounded down, it is at most that
  split
  · have hhalf : (1 : ℚ) / 2 ≤ (num % den : ℕ) / den := by
      have h : den ≤ 2 * (num % den) := by omega
      have h : (den : ℚ) ≤ 2 * (num % den : ℕ) := by exact_mod_cast h
      rw [div_le_div_iff₀ two_pos hpos]
      linarith
    push_cast
    constructor <;> linarith
  · have hhalf : ((num % den : ℕ) : ℚ) / den ≤ 1 / 2 := by
      have h : 2 * (num % den) ≤ den := by omega
      have h : 2 * ((num % den : ℕ) : ℚ) ≤ den := by exact_mod_cast h
      rw [div_le_div_iff₀ hpos two_pos]
      linarith
    constructor <;> linarith

theorem leastNormal_cast : (leastNormal : ℚ) = 2 ^ (52 : ℤ) := by
  norm_num [leastNormal]

theorem log2_bounds {n : ℕ} (hn : n ≠ 0) :
    (2 : ℚ) ^ (Nat.log2 n : ℤ) ≤ n ∧ (n : ℚ) < 2 ^ ((Nat.log2 n : ℤ) + 1) := by
  constructor
  · exact_mod_cast Nat.log2_self_le hn
  · exact_mod_cast Nat.lt_log2_self (n := n)

section Quotients

variable (num : ℕ) {den : ℕ} (hden : 0 < den) (e : ℤ)

include hden

theorem scaledQuotient_near : |(scaledQuotient num den e : ℚ) - num / den / 2 ^ e| ≤ 1 / 2 := by
  unfold scaledQuotient
  split
  · rename_i h
    have hnear := roundHalfEven_near num (Nat.mul_pos hden (Nat.pow_pos (n := e.toNat) two_pos))
    rw [two_zpow_of_nonneg h, div_div]
    exact_mod_cast hnear
  · rename_i h
    have hnear := roundHalfEven_near (num * Nat.pow 2 (-e).toNat) hden
    rw [two_zpow_of_neg h, div_inv_eq_mul, div_mul_eq_mul_div]
    exact_mod_cast hnear

/-- Whether a quotient has less than 53 bits at an exponent. -/
theorem below_iff :
    (if 0 ≤ e then num < den * Nat.pow 2 e.toNat * leastNormal
      else num * Nat.pow 2 (-e).toNat < den * leastNormal) ↔
    (num : ℚ) / den < leastNormal * 2 ^ e := by
  have hpos : (0 : ℚ) < den := by exact_mod_cast hden
  rw [div_lt_iff₀ hpos]
  -- a power of two with a negative exponent stands on the other side
  split
  · rename_i h
    have hcast : (leastNormal : ℚ) * 2 ^ e * den = (den * Nat.pow 2 e.toNat * leastNormal : ℕ) := by
      rw [two_zpow_of_nonneg h]
      push_cast
      ring
    rw [hcast, Nat.cast_lt]
  · rename_i h
    have hscale : (0 : ℚ) < (Nat.pow 2 (-e).toNat : ℕ) := by
      exact_mod_cast Nat.pow_pos (n := (-e).toNat) two_pos
    rw [two_zpow_of_neg h, ← div_eq_mul_inv, div_mul_eq_mul_div, lt_div_iff₀ hscale,
      mul_comm _ (den : ℚ)]
    exact_mod_cast Iff.rfl

/-- The exponent that is guessed first is right or one too large. -/
theorem guess_bounds (hnum : num ≠ 0) :
    let guess : ℤ := (Nat.log2 num : ℤ) - (Nat.log2 den : ℤ) - 52
    leastNormal * 2 ^ (guess - 1) < (num : ℚ) / den ∧
      (num : ℚ) / den < 2 * leastNormal * 2 ^ guess := by
  intro guess
  have hpos : (0 : ℚ) < den := by exact_mod_cast hden
  obtain ⟨hnumlow, hnumhigh⟩ := log2_bounds hnum
  obtain ⟨hdenlow, hdenhigh⟩ := log2_bounds (Nat.ne_of_gt hden)
  have hlow : leastNormal * 2 ^ (guess - 1) * 2 ^ ((Nat.log2 den : ℤ) + 1) =
      (2 : ℚ) ^ (Nat.log2 num : ℤ) := by
    rw [leastNormal_cast, ← zpow_add₀ two_ne_zero, ← zpow_add₀ two_ne_zero]
    congr 1
    omega
  have hhigh : 2 * leastNormal * 2 ^ guess * 2 ^ (Nat.log2 den : ℤ) =
      (2 : ℚ) ^ ((Nat.log2 num : ℤ) + 1) := by
    rw [leastNormal_cast, ← zpow_one_add₀ two_ne_zero, ← zpow_add₀ two_ne_zero,
      ← zpow_add₀ two_ne_zero]
    congr 1
    omega
  constructor
  · rw [lt_div_iff₀ hpos]
    calc leastNormal * 2 ^ (guess - 1) * (den : ℚ)
        < leastNormal * 2 ^ (guess - 1) * 2 ^ ((Nat.log2 den : ℤ) + 1) := by
          rw [leastNormal_cast]
          gcongr
      _ ≤ num := by rwa [hlow]
  · rw [div_lt_iff₀ hpos]
    calc (num : ℚ) < 2 * leastNormal * 2 ^ guess * 2 ^ (Nat.log2 den : ℤ) := by rwa [hhigh]
      _ ≤ 2 * leastNormal * 2 ^ guess * den := by gcongr

/-- At its exponent a quotient has 53 bits, or fewer if the exponent is the least one. -/
theorem exponentFor_spec (hnum : num ≠ 0) :
    leastExponent ≤ exponentFor num den ∧
      (num : ℚ) / den < 2 * leastNormal * 2 ^ exponentFor num den ∧
      (leastExponent < exponentFor num den →
        leastNormal * 2 ^ exponentFor num den ≤ (num : ℚ) / den) := by
  obtain ⟨hlow, hhigh⟩ := guess_bounds num hden hnum
  have hbelow := below_iff num hden ((Nat.log2 num : ℤ) - (Nat.log2 den : ℤ) - 52)
  unfold exponentFor
  generalize (Nat.log2 num : ℤ) - (Nat.log2 den : ℤ) - 52 = guess at hlow hhigh hbelow ⊢
  simp only [hbelow]
  -- the guess, corrected, before it is kept from falling below the least exponent
  obtain ⟨e, he, hlow, hhigh⟩ : ∃ e : ℤ,
      (if (num : ℚ) / den < leastNormal * 2 ^ guess then guess - 1 else guess) = e ∧
        leastNormal * 2 ^ e ≤ (num : ℚ) / den ∧ (num : ℚ) / den < 2 * leastNormal * 2 ^ e := by
    refine ⟨_, rfl, ?_⟩
    split
    · rename_i h
      refine ⟨hlow.le, h.trans_eq ?_⟩
      rw [zpow_sub_one₀ two_ne_zero]
      ring
    · rename_i h
      exact ⟨not_lt.mp h, hhigh⟩
  rw [he]
  refine ⟨le_max_left _ _, hhigh.trans_le ?_, ?_⟩
  · gcongr
    · exact one_le_two
    · exact le_max_right _ _
  · intro h
    rwa [max_eq_right (by omega)]

/-- The significand has 53 bits or, by a carry, one more, and it is off by a half at most. -/
theorem scaledQuotient_spec (hnum : num ≠ 0) :
    let e := exponentFor num den
    let m := scaledQuotient num den e
    m ≤ 2 * leastNormal ∧ (leastExponent < e → leastNormal ≤ m) ∧
      |(m : ℚ) * 2 ^ e - num / den| ≤ 2 ^ e / 2 := by
  intro e m
  obtain ⟨-, hhigh, hlow⟩ := exponentFor_spec num hden hnum
  obtain ⟨hleft, hright⟩ := abs_le.mp (scaledQuotient_near num hden e)
  have hscale : (0 : ℚ) < 2 ^ e := by positivity
  rw [← div_lt_iff₀ hscale] at hhigh
  rw [← le_div_iff₀ hscale] at hlow
  refine ⟨?_, fun h => ?_, ?_⟩
  · have hlt : (m : ℚ) < (2 * leastNormal : ℕ) + 1 := by
      push_cast
      linarith
    exact Nat.lt_succ_iff.mp (by exact_mod_cast hlt)
  · have hlt : (leastNormal : ℚ) < m + 1 := by
      have := hlow h
      linarith
    exact Nat.lt_succ_iff.mp (by exact_mod_cast hlt)
  · have hmul : (m : ℚ) * 2 ^ e - num / den = (m - num / den / 2 ^ e) * 2 ^ e := by
      field_simp
    have hhalf : |(m : ℚ) - num / den / 2 ^ e| ≤ 1 / 2 := abs_le.mpr ⟨hleft, hright⟩
    rw [hmul, abs_mul, abs_of_pos hscale]
    linarith [mul_le_mul_of_nonneg_right hhalf hscale.le]

end Quotients

/-- Whether a number is rounded to a double: to one in canonical form, with an error of one part in
`2^53` at most, or of half of the least double. -/
structure RoundsTo (v : ℚ) (y : Binary64) : Prop where
  canonical : y.Canonical
  error : |y.magnitude - v| ≤ max (v / (2 * leastNormal)) (2 ^ leastExponent / 2)

/-- A quotient is rounded to a double, or it is too large. -/
theorem ofRatio_cases (num : ℕ) {den : ℕ} (hden : 0 < den) :
    (ofRatio num den = none ∧ overflow ≤ (num : ℚ) / den) ∨
      ∃ y, ofRatio num den = some y ∧ RoundsTo (num / den) y := by
  by_cases hnum : num = 0
  · refine .inr ⟨zero, if_pos hnum, canonical_zero, ?_⟩
    simp [zero, magnitude, hnum]
  obtain ⟨hleast, -, hnormal⟩ := exponentFor_spec num hden hnum
  obtain ⟨hm, hbits, herror⟩ := scaledQuotient_spec num hden hnum
  simp only [ofRatio, hnum, if_false]
  generalize exponentFor num den = e at *
  generalize scaledQuotient num den e = m at *
  generalize (num : ℚ) / den = v at *
  -- half of the last place is relative to the value, or it is that of the least double
  have hulp : (2 : ℚ) ^ e / 2 ≤ max (v / (2 * leastNormal)) (2 ^ leastExponent / 2) := by
    rcases eq_or_lt_of_le hleast with rfl | hlt
    · exact le_max_right _ _
    · refine le_max_of_le_left ?_
      have hv := hnormal hlt
      rw [leastNormal_cast] at hv ⊢
      rw [div_le_div_iff₀ two_pos (by positivity)]
      linarith
  have herror' := herror.trans hulp
  -- the least number of 53 bits above the range is too large
  have hlarge (h : greatestExponent < e) : overflow ≤ v := by
    have hpow : (2 : ℚ) ^ (greatestExponent + 1) ≤ 2 ^ e := zpow_le_zpow_right₀ one_le_two h
    have hlow := hnormal (lt_trans (by decide) h)
    rw [zpow_add_one₀ two_ne_zero] at hpow
    rw [leastNormal_cast] at hlow
    rw [overflow, leastNormal_cast]
    have : (0 : ℚ) < 2 ^ greatestExponent := by positivity
    linarith
  by_cases hcarry : m = 2 * leastNormal
  · -- the significand is halved, and the exponent goes up
    have hvalue : (leastNormal : ℚ) * 2 ^ (e + 1) = m * 2 ^ e := by
      rw [hcarry, zpow_add_one₀ two_ne_zero]
      push_cast
      ring
    simp only [hcarry, if_true]
    split
    · rename_i hover
      refine .inl ⟨rfl, ?_⟩
      rcases eq_or_lt_of_le (Int.lt_add_one_iff.mp hover) with rfl | hlt
      · have := (abs_le.mp herror).2
        rw [hcarry] at this
        push_cast at this
        rw [overflow]
        linarith
      · -- the carry may lead above the greatest exponent
        exact hlarge hlt
    · rename_i hfits
      have hbits : leastNormal < 2 * leastNormal := by decide
      refine .inr ⟨_, rfl, ⟨hbits, ?_, not_lt.mp hfits, fun _ => le_rfl⟩, ?_⟩
      · exact hleast.trans (Int.le_add_one le_rfl)
      · rwa [magnitude, hvalue]
  · simp only [hcarry, if_false]
    split
    · rename_i hover
      exact .inl ⟨rfl, hlarge hover⟩
    · rename_i hfits
      exact .inr ⟨_, rfl, ⟨lt_of_le_of_ne hm hcarry, hleast, not_lt.mp hfits, hbits⟩, herror'⟩

namespace RoundsTo

variable {v : ℚ} {y : Binary64} (h : RoundsTo v y) (hv : 1 ≤ v)

include h hv

/-- Numbers from one on are rounded with a relative error. -/
theorem error_le : |y.magnitude - v| ≤ v / (2 * leastNormal) := by
  refine h.error.trans_eq (max_eq_left ?_)
  have hleast : (2 : ℚ) ^ leastExponent ≤ 2 ^ (-52 : ℤ) :=
    zpow_le_zpow_right₀ one_le_two (by decide)
  rw [leastNormal_cast, ← zpow_one_add₀ two_ne_zero]
  norm_num at hleast ⊢
  linarith

theorem magnitude_le : y.magnitude ≤ v * (1 + 1 / (2 * leastNormal)) := by
  have := (abs_le.mp (h.error_le hv)).2
  rw [mul_add, mul_one, mul_one_div]
  linarith

theorem half_le_magnitude : v / 2 ≤ y.magnitude := by
  have hsmall : v / (2 * leastNormal) ≤ v / 2 := by
    have : (1 : ℚ) ≤ leastNormal := by norm_num [leastNormal]
    gcongr
    linarith
  have := (abs_le.mp (h.error_le hv)).1
  linarith

end RoundsTo

/-! ### Arithmetic -/

theorem exists_ofRatio {num den : ℕ} (hden : 0 < den) (h : (num : ℚ) / den < overflow) :
    ∃ y, ofRatio num den = some y ∧ RoundsTo (num / den) y :=
  (ofRatio_cases num hden).resolve_left fun hover => absurd hover.2 (not_le.mpr h)

theorem canonical_of_ofRatio {num den : ℕ} (hden : 0 < den) {y : Binary64}
    (h : ofRatio num den = some y) : y.Canonical := by
  rcases ofRatio_cases num hden with ⟨hnone, -⟩ | ⟨z, hz, hround⟩
  · rw [hnone] at h
    cases h
  · obtain rfl : z = y := Option.some.inj (hz.symm.trans h)
    exact hround.canonical

theorem roundsTo_ofNat {n : ℕ} (h : (n : ℚ) < overflow) : RoundsTo n (ofNat n) := by
  have hone : (n : ℚ) / (1 : ℕ) < overflow := by simpa using h
  obtain ⟨y, hy, hround⟩ := exists_ofRatio Nat.one_pos hone
  rw [ofNat, hy]
  simpa using hround

theorem overflow_eq :
    overflow * 2 = ((4 * leastNormal - 1) * Nat.pow 2 greatestExponent.toNat : ℕ) := by
  have hbits : ((4 * leastNormal - 1 : ℕ) : ℚ) = 4 * leastNormal - 1 := by
    norm_num [leastNormal]
  rw [Nat.cast_mul, hbits, ← two_zpow_of_nonneg (by decide), overflow]
  ring

theorem lt_overflow_iff (n : ℕ) :
    (n : ℚ) < overflow ↔ n * 2 < (4 * leastNormal - 1) * Nat.pow 2 greatestExponent.toNat := by
  have hcast : ((n * 2 : ℕ) : ℚ) = n * 2 := Nat.cast_mul n 2
  rw [← mul_lt_mul_iff_of_pos_right (two_pos : (0 : ℚ) < 2), ← hcast, overflow_eq]
  exact Nat.cast_lt

theorem ten_pow_mono {k l : ℕ} (h : k ≤ l) : Nat.pow 10 k ≤ Nat.pow 10 l :=
  Nat.pow_le_pow_right (by decide) h

/-- The powers of ten in the range are those up to `10^308`. -/
theorem ten_pow_lt_overflow_iff (k : ℕ) : ((Nat.pow 10 k : ℕ) : ℚ) < overflow ↔ k ≤ 308 := by
  constructor
  · intro h
    by_contra hlarge
    have hlt := (Nat.cast_le.mpr (ten_pow_mono (not_le.mp hlarge))).trans_lt h
    revert hlt
    rw [imp_false, lt_overflow_iff]
    decide +kernel
  · intro h
    refine (Nat.cast_le.mpr (ten_pow_mono h)).trans_lt ?_
    rw [lt_overflow_iff]
    decide +kernel

theorem roundsTo_powerOfTen {k : ℕ} (h : k ≤ 308) : RoundsTo (10 ^ k) (powerOfTen k) := by
  simpa [powerOfTen] using roundsTo_ofNat ((ten_pow_lt_overflow_iff k).mpr h)

/-- Numbers of 64 bits are doubles but for rounding. -/
theorem roundsTo_ofNat_of_lt {n : ℕ} (h : n < bound64) : RoundsTo n (ofNat n) := by
  have hlarge : bound64 * 2 < (4 * leastNormal - 1) * Nat.pow 2 greatestExponent.toNat := by
    decide +kernel
  exact roundsTo_ofNat ((lt_overflow_iff n).mpr ((Nat.mul_lt_mul_of_pos_right h two_pos).trans hlarge))

theorem exists_mul {x y : Binary64} (h : x.magnitude * y.magnitude < overflow) :
    ∃ z, x.mul y = some z ∧ RoundsTo (x.magnitude * y.magnitude) z := by
  have hvalue : ((x.ratio.1 * y.ratio.1 : ℕ) : ℚ) / (x.ratio.2 * y.ratio.2 : ℕ) =
      x.magnitude * y.magnitude := by
    rw [← ratio_eq, ← ratio_eq, div_mul_div_comm]
    push_cast
    rfl
  rw [← hvalue] at h ⊢
  exact exists_ofRatio (Nat.mul_pos x.ratio_pos y.ratio_pos) h

section Division

variable {x y : Binary64} (hy : 0 < y.magnitude)

include hy

theorem denominator_pos : 0 < x.ratio.2 * y.ratio.1 := by
  refine Nat.mul_pos x.ratio_pos (Nat.pos_of_ne_zero fun hzero => ?_)
  rw [← ratio_eq, hzero] at hy
  simp at hy

theorem exists_div (h : x.magnitude / y.magnitude < overflow) :
    ∃ z, x.div y = some z ∧ RoundsTo (x.magnitude / y.magnitude) z := by
  have hvalue : ((x.ratio.1 * y.ratio.2 : ℕ) : ℚ) / (x.ratio.2 * y.ratio.1 : ℕ) =
      x.magnitude / y.magnitude := by
    rw [← ratio_eq, ← ratio_eq, div_div_div_eq]
    push_cast
    rfl
  rw [← hvalue] at h ⊢
  exact exists_ofRatio (denominator_pos hy) h

end Division

/-! ### Scaling by powers of ten -/

theorem magnitude_powerOfTen {k : ℕ} (hpos : 1 ≤ k) (h : k ≤ 308) :
    5 ≤ (powerOfTen k).magnitude := by
  have hten : (10 : ℚ) ^ 1 ≤ 10 ^ k := pow_le_pow_right₀ (by norm_num) hpos
  have := (roundsTo_powerOfTen h).half_le_magnitude (by linarith)
  linarith

theorem Canonical.magnitude_lt {x : Binary64} (h : x.Canonical) : x.magnitude < 2 * overflow := by
  have hbits : (x.significand : ℚ) ≤ 2 * leastNormal := by
    exact_mod_cast h.significand_lt.le
  have hpow : (2 : ℚ) ^ x.exponent ≤ 2 ^ greatestExponent :=
    zpow_le_zpow_right₀ one_le_two h.le_greatest
  have hpos : (0 : ℚ) < 2 ^ x.exponent := zpow_pos two_pos _
  rw [magnitude, overflow]
  generalize (2 : ℚ) ^ greatestExponent = p at *
  calc x.significand * (2 : ℚ) ^ x.exponent ≤ 2 * leastNormal * p := by gcongr
    _ < 2 * ((2 * leastNormal - 1 / 2) * p) := by
      rw [leastNormal_cast]
      linarith

/-- Division by a power of ten does not leave the range. -/
theorem Canonical.exists_div_powerOfTen {x : Binary64} (h : x.Canonical) {k : ℕ} (hpos : 1 ≤ k)
    (hk : k ≤ 308) : ∃ z, x.div (powerOfTen k) = some z ∧ z.Canonical := by
  have hten := magnitude_powerOfTen hpos hk
  have hsmall : x.magnitude / (powerOfTen k).magnitude < overflow := by
    rw [div_lt_iff₀ (by linarith)]
    have := h.magnitude_lt
    have := x.magnitude_nonneg
    nlinarith
  obtain ⟨z, hz, hround⟩ := exists_div (by linarith) hsmall
  exact ⟨z, hz, hround.canonical⟩

theorem Canonical.descend {x : Binary64} (h : x.Canonical) (n : ℕ) :
    (Binary64.descend x n).Canonical := by
  induction n generalizing x with
  | zero => exact h
  | succ n ih =>
    rw [Binary64.descend]
    split
    · exact h
    · obtain ⟨z, hz, hcanonical⟩ := h.exists_div_powerOfTen (by decide : 1 ≤ 308) le_rfl
      rw [hz]
      exact ih hcanonical

/-- The number of a division after the divisions by `10^308`. -/
theorem last_division {k : ℕ} (hk : 0 < k) :
    1 ≤ k - 308 * ((k - 1) / 308) ∧ k - 308 * ((k - 1) / 308) ≤ 308 := by
  omega

/-- Scaling stays in the range, unless it leaves it upwards. -/
theorem Canonical.exists_scaleByTen {x : Binary64} (h : x.Canonical) {e : ℤ}
    (hup : x.isZero = false → 0 ≤ e → e ≤ 308 ∧
      x.magnitude * (10 ^ e * (1 + 1 / (2 * leastNormal))) < overflow) :
    ∃ y, x.scaleByTen e = some y := by
  unfold scaleByTen
  split
  · exact ⟨x, rfl⟩
  rename_i hzero
  split
  · -- scaling up: the power is rounded, then the product
    rename_i hnonneg
    obtain ⟨hle, hlt⟩ := hup (Bool.not_eq_true _ ▸ hzero) hnonneg
    obtain ⟨n, rfl⟩ := Int.eq_ofNat_of_zero_le hnonneg
    rw [if_pos hle, Int.natAbs_natCast]
    have hpow : (powerOfTen n).magnitude ≤ 10 ^ n * (1 + 1 / (2 * leastNormal)) := by
      refine (roundsTo_powerOfTen (by omega)).magnitude_le ?_
      exact one_le_pow₀ (by norm_num)
    obtain ⟨y, hy, -⟩ := exists_mul (x := x) (y := powerOfTen n) (by
      refine (mul_le_mul_of_nonneg_left hpow x.magnitude_nonneg).trans_lt ?_
      rwa [zpow_natCast] at hlt)
    exact ⟨y, hy⟩
  · -- scaling down: several divisions, each by a power that is there
    rename_i hneg
    obtain ⟨hpos, hle⟩ := last_division (k := e.natAbs) (by omega)
    dsimp only
    split
    · exact ⟨_, rfl⟩
    · obtain ⟨y, hy, -⟩ := (h.descend ((e.natAbs - 1) / 308)).exists_div_powerOfTen hpos hle
      exact ⟨y, hy⟩

/-- A number of 64 bits can be scaled if there is room for two errors of rounding. -/
theorem exists_scaleByTen_ofNat {n : ℕ} (hn : n < bound64) {e : ℤ}
    (h : (n : ℚ) * 10 ^ e * (1 + 1 / (2 * leastNormal)) ^ 2 < overflow) :
    ∃ y, (ofNat n).scaleByTen e = some y := by
  have hround := roundsTo_ofNat_of_lt hn
  refine hround.canonical.exists_scaleByTen fun hzero hnonneg => ?_
  have hone : 1 ≤ n := by
    refine Nat.one_le_iff_ne_zero.mpr fun hn => ?_
    rw [hn] at hzero
    exact absurd hzero (by decide)
  have hone : (1 : ℚ) ≤ n := by exact_mod_cast hone
  have hten : (0 : ℚ) < 10 ^ e := zpow_pos (by norm_num) e
  have hmagnitude := hround.magnitude_le hone
  have hfactor : (1 : ℚ) ≤ 1 + 1 / (2 * leastNormal) := le_add_of_nonneg_right (by positivity)
  generalize (1 : ℚ) + 1 / (2 * leastNormal) = q at *
  -- the power is not too large by itself, as the number is one at least
  constructor
  · obtain ⟨k, rfl⟩ := Int.eq_ofNat_of_zero_le hnonneg
    have hpower : ((Nat.pow 10 k : ℕ) : ℚ) = 10 ^ (k : ℤ) := by simp
    have hk : k ≤ 308 := by
      rw [← ten_pow_lt_overflow_iff, hpower]
      calc (10 : ℚ) ^ (k : ℤ) ≤ n * 10 ^ (k : ℤ) := le_mul_of_one_le_left hten.le hone
        _ ≤ n * 10 ^ (k : ℤ) * q ^ 2 :=
          le_mul_of_one_le_right (by positivity) (one_le_pow₀ hfactor)
        _ < overflow := h
    exact_mod_cast hk
  · calc (ofNat n).magnitude * (10 ^ e * q) ≤ n * q * (10 ^ e * q) := by gcongr
      _ = n * 10 ^ e * q ^ 2 := by ring
      _ < overflow := h

theorem Canonical.scaleByTen {x y : Binary64} (h : x.Canonical) {e : ℤ}
    (hy : x.scaleByTen e = some y) : y.Canonical := by
  unfold Binary64.scaleByTen at hy
  split at hy
  · obtain rfl := Option.some.inj hy
    exact h
  split at hy
  · split at hy
    · exact canonical_of_ofRatio (Nat.mul_pos x.ratio_pos (ratio_pos _)) hy
    · cases hy
  · obtain ⟨hpos, hle⟩ := last_division (k := e.natAbs) (by omega)
    dsimp only at hy
    split at hy
    · obtain rfl := Option.some.inj hy
      exact h.descend _
    · obtain ⟨z, hz, hcanonical⟩ :=
        (h.descend ((e.natAbs - 1) / 308)).exists_div_powerOfTen hpos hle
      obtain rfl : z = y := Option.some.inj (hz.symm.trans hy)
      exact hcanonical

end Binary64

end Courier

import Courier.Number.Decimal
import Courier.Proofs.Number.Rounding

/-!
The shortest decimal of a double.

The search for digits tries one digit more each time, until some decimal of that many digits lies in
the interval of the numbers that round to the double (`shortestFrom_cases`).  Decimals of so many
digits are a grid; the interval is stretched until the step of the grid is one (`onGrid_spec`), and
the whole numbers next to its value are tried (`holds_of_nearest`).

`Interval.Around` says what the interval of a double is: from half of a last place below the value
to half of one above, or a quarter below where the exponent changes.  If no decimal of seventeen
digits were inside, it would not be wider than their distance (`width_of_nearest`).  But it is
(`value_lt_width`), since a double has 53 bits and these are less than sixteen digits.  For this the
magnitude that the digits are counted from must not be too large (`decimalMagnitude_le`).

Main statement: the decimal that is found lies in the interval of the double (`contains_shortest`).
-/

namespace Courier.Binary64

theorem ten_zpow_of_nonneg {k : ℤ} (h : 0 ≤ k) : (10 : ℚ) ^ k = (Nat.pow 10 k.toNat : ℕ) :=
  zpow_of_nonneg 10 h

theorem ten_zpow_of_neg {k : ℤ} (h : ¬ 0 ≤ k) :
    (10 : ℚ) ^ k = ((Nat.pow 10 (-k).toNat : ℕ) : ℚ)⁻¹ :=
  zpow_of_neg 10 h

/-! ### Intervals -/

namespace Interval

/-- Whether a number lies in the interval or at one of its ends. -/
structure Contains (i : Interval) (v : ℚ) : Prop where
  low_le : i.low ≤ v * i.den
  le_high : v * i.den ≤ i.high

/-- Whether the value lies inside. -/
structure Proper (i : Interval) : Prop where
  den_pos : 0 < i.den
  low_lt : i.low < i.value
  lt_high : i.value < i.high

variable {i : Interval} {d : ℕ}

theorem bounds_of_holds (h : i.holds d = true) : i.low ≤ d * i.den ∧ d * i.den ≤ i.high := by
  unfold holds at h
  split at h <;> simp only [Bool.and_eq_true, decide_eq_true_eq] at h <;> omega

theorem outside_of_holds (h : i.holds d = false) : d * i.den ≤ i.low ∨ i.high ≤ d * i.den := by
  unfold holds at h
  split at h <;> simp only [Bool.and_eq_false_iff, decide_eq_false_iff_not] at h <;> omega

theorem holds_of_nearest (h : i.nearest = some d) : i.holds d = true := by
  unfold nearest at h
  dsimp only at h
  split at h
  · split at h <;> cases h <;> assumption
  · cases h
    assumption
  · cases h
    assumption
  · cases h

/-- Without a whole number next to the value the interval is not wider than the grid. -/
theorem width_of_nearest (hi : i.Proper) (h : i.nearest = none) : i.high ≤ i.low + i.den := by
  have hbelow := Nat.div_mul_le_self i.value i.den
  have habove := Nat.lt_div_mul_add hi.den_pos (a := i.value)
  have hstep : (i.value / i.den + 1) * i.den = i.value / i.den * i.den + i.den := Nat.succ_mul _ _
  have hlow := hi.low_lt
  have hhigh := hi.lt_high
  unfold nearest at h
  dsimp only at h
  split at h
  · split at h <;> cases h
  · cases h
  · cases h
  · -- neither the number below the value nor the one above it lies inside
    rename_i hb ha
    have hb := outside_of_holds hb
    have ha := outside_of_holds ha
    omega

/-- On a grid all numbers are divided by its step. -/
theorem onGrid_spec (i : Interval) (k : ℤ) : ∃ c : ℕ, 0 < c ∧ (i.onGrid k).low = i.low * c ∧
    (i.onGrid k).value = i.value * c ∧ (i.onGrid k).high = i.high * c ∧
    ((i.onGrid k).den : ℚ) = 10 ^ k * i.den * c := by
  unfold onGrid
  split
  · rename_i h
    refine ⟨1, Nat.one_pos, by simp, by simp, by simp, ?_⟩
    rw [ten_zpow_of_nonneg h]
    push_cast
    ring
  · rename_i h
    have hpos : 0 < Nat.pow 10 (-k).toNat := Nat.pow_pos (by decide)
    refine ⟨_, hpos, rfl, rfl, rfl, ?_⟩
    have hne : ((Nat.pow 10 (-k).toNat : ℕ) : ℚ) ≠ 0 := by exact_mod_cast hpos.ne'
    rw [ten_zpow_of_neg h]
    field_simp

theorem Proper.onGrid (hi : i.Proper) (k : ℤ) : (i.onGrid k).Proper := by
  obtain ⟨c, hc, hlow, hvalue, hhigh, hden⟩ := onGrid_spec i k
  have hpos := hi.den_pos
  refine ⟨?_, ?_, ?_⟩
  · have : (0 : ℚ) < (i.onGrid k).den := by
      rw [hden]
      positivity
    exact_mod_cast this
  · rw [hlow, hvalue]
    exact Nat.mul_lt_mul_of_pos_right hi.low_lt hc
  · rw [hvalue, hhigh]
    exact Nat.mul_lt_mul_of_pos_right hi.lt_high hc

theorem contains_of_nearest {k : ℤ} (h : (i.onGrid k).nearest = some d) :
    i.Contains (d * 10 ^ k) := by
  obtain ⟨c, hc, hlow, -, hhigh, hden⟩ := onGrid_spec i k
  have hc : (0 : ℚ) < c := by exact_mod_cast hc
  obtain ⟨hleft, hright⟩ := bounds_of_holds (holds_of_nearest h)
  rw [hlow] at hleft
  rw [hhigh] at hright
  have hscale : (d : ℚ) * (i.onGrid k).den = d * 10 ^ k * i.den * c := by
    rw [hden]
    ring
  constructor
  · refine le_of_mul_le_mul_right ?_ hc
    rw [← hscale]
    exact_mod_cast hleft
  · refine le_of_mul_le_mul_right ?_ hc
    rw [← hscale]
    exact_mod_cast hright

/-- Without a hit on a grid its step is as large as the interval. -/
theorem width_of_onGrid (hi : i.Proper) {k : ℤ} (h : (i.onGrid k).nearest = none) :
    (i.high : ℚ) - i.low ≤ 10 ^ k * i.den := by
  obtain ⟨c, hc, hlow, -, hhigh, hden⟩ := onGrid_spec i k
  have hc : (0 : ℚ) < c := by exact_mod_cast hc
  have hwidth : ((i.onGrid k).high : ℚ) ≤ (i.onGrid k).low + (i.onGrid k).den := by
    exact_mod_cast width_of_nearest (hi.onGrid k) h
  rw [hlow, hhigh, hden] at hwidth
  push_cast at hwidth
  refine le_of_mul_le_mul_right ?_ hc
  linarith

end Interval

/-! ### The magnitude in decimals -/

theorem length_toString (n : ℕ) : (toString n).length = (Nat.toDigits 10 n).length := by
  rw [Nat.toString_eq_ofList_toDigits, String.length_ofList]

theorem lt_pow_length (n : ℕ) : n < 10 ^ (toString n).length := by
  rw [length_toString, ← Nat.length_toDigits_le_iff (by decide) Nat.length_toDigits_pos]

theorem pow_length_le {n : ℕ} (hn : 0 < n) : 10 ^ ((toString n).length - 1) ≤ n := by
  by_cases h : (toString n).length - 1 = 0
  · rw [h]
    exact hn
  · rw [← not_lt, ← Nat.length_toDigits_le_iff (by decide) (Nat.pos_of_ne_zero h), length_toString]
    rw [length_toString] at h
    omega

/-- The decimal magnitude is no overestimate. -/
theorem decimalMagnitude_le {num den : ℕ} (hnum : 0 < num) (hden : 0 < den) :
    (10 : ℚ) ^ decimalMagnitude num den ≤ num / den := by
  have hpos : (0 : ℚ) < den := by exact_mod_cast hden
  have hshift (g : ℕ) (h : den ≤ num * 10 ^ g) : (10 : ℚ) ^ (-(g : ℤ)) ≤ num / den := by
    rw [zpow_neg, zpow_natCast, inv_le_iff_one_le_mul₀ (by positivity), div_mul_eq_mul_div,
      le_div_iff₀ hpos, one_mul]
    exact_mod_cast h
  unfold decimalMagnitude
  -- from one on the digits are counted, below one those of the inverse
  split
  · rename_i h
    have hlow := pow_length_le (Nat.div_pos h hden)
    have hlength : ((toString (num / den)).length : ℤ) - 1 =
        (((toString (num / den)).length - 1 : ℕ) : ℤ) := by
      have := Nat.length_toDigits_pos (b := 10) (n := num / den)
      rw [length_toString]
      omega
    rw [hlength, zpow_natCast, le_div_iff₀ hpos]
    exact_mod_cast (Nat.mul_le_mul_right den hlow).trans (Nat.div_mul_le_self num den)
  · dsimp only
    split
    · -- the number is one over a power of ten, or between two of these
      rename_i h
      have hlength : -(((toString (den / num)).length : ℤ) - 1) =
          -(((toString (den / num)).length - 1 : ℕ) : ℤ) := by
        have := Nat.length_toDigits_pos (b := 10) (n := den / num)
        rw [length_toString]
        omega
      rw [hlength]
      exact hshift _ h
    · have hhigh := (Nat.div_lt_iff_lt_mul hnum).mp (lt_pow_length (den / num))
      refine hshift _ ?_
      rw [mul_comm]
      exact hhigh.le

/-! ### The interval of a double -/

/-- Whether an interval is the one around a double: its parts in quarters of the last place, all of
them multiplied by `scale`.

* `gap`: only below a power of two the lower half of the interval is half as wide. -/
structure Interval.Around (i : Interval) (x : Binary64) (scale low : ℕ) : Prop where
  scale_pos : 0 < scale
  den_mul : (i.den : ℚ) * 2 ^ x.exponent = 4 * scale
  low_eq : i.low = low * scale
  value_eq : i.value = 4 * x.significand * scale
  high_eq : i.high = (4 * x.significand + 2) * scale
  low_pos : 0 < low
  low_lt : low < 4 * x.significand
  gap : low + 2 = 4 * x.significand ∨ low + 1 = 4 * x.significand ∧ x.significand = leastNormal

theorem interval_around {x : Binary64} (hpos : 0 < x.significand) :
    ∃ scale low, x.interval.Around x scale low := by
  -- the lower bound is a half of a place away, or a quarter at a power of two
  have hlow : ∃ low, (if x.significand = leastNormal ∧ x.exponent > leastExponent
      then 4 * x.significand - 1 else 4 * x.significand - 2) = low ∧ 0 < low ∧
      low < 4 * x.significand ∧ (low + 2 = 4 * x.significand ∨
        low + 1 = 4 * x.significand ∧ x.significand = leastNormal) := by
    refine ⟨_, rfl, ?_⟩
    split
    · rename_i h
      exact ⟨by omega, by omega, .inr ⟨by omega, h.1⟩⟩
    · exact ⟨by omega, by omega, .inl (by omega)⟩
  obtain ⟨low, hlow, hlowpos, hlt, hgap⟩ := hlow
  unfold interval
  simp only [hlow]
  -- the power of two goes into the parts or into their common denominator
  split
  · rename_i h
    refine ⟨_, low, Nat.pow_pos (n := x.exponent.toNat) two_pos, ?_, rfl, rfl, rfl, hlowpos, hlt, hgap⟩
    rw [two_zpow_of_nonneg h]
    norm_num
  · rename_i h
    refine ⟨1, low, Nat.one_pos, ?_, (Nat.mul_one _).symm, (Nat.mul_one _).symm,
      (Nat.mul_one _).symm, hlowpos, hlt, hgap⟩
    have hne : ((Nat.pow 2 (-x.exponent).toNat : ℕ) : ℚ) ≠ 0 := by
      exact_mod_cast (Nat.pow_pos (n := (-x.exponent).toNat) two_pos).ne'
    rw [two_zpow_of_neg h, Nat.cast_mul, mul_assoc, mul_inv_cancel₀ hne]
    norm_num

namespace Interval.Around

variable {i : Interval} {x : Binary64} {scale low : ℕ} (h : i.Around x scale low)

include h

theorem den_pos : 0 < i.den := by
  refine Nat.pos_of_ne_zero fun hzero => h.scale_pos.ne' ?_
  have hden := h.den_mul
  rw [hzero] at hden
  simpa using hden

theorem proper : i.Proper where
  den_pos := h.den_pos
  low_lt := by
    rw [h.low_eq, h.value_eq]
    exact Nat.mul_lt_mul_of_pos_right h.low_lt h.scale_pos
  lt_high := by
    rw [h.value_eq, h.high_eq]
    exact Nat.mul_lt_mul_of_pos_right (Nat.lt_add_of_pos_right two_pos) h.scale_pos

/-- What lies in the interval is at most half a last place above the double. -/
theorem le_of_contains {v : ℚ} (hv : i.Contains v) :
    v ≤ (x.significand + 1 / 2) * 2 ^ x.exponent := by
  have hscale : (0 : ℚ) < scale := by exact_mod_cast h.scale_pos
  have hhigh := mul_le_mul_of_nonneg_right hv.le_high (zpow_nonneg two_pos.le x.exponent)
  rw [mul_assoc, h.den_mul, h.high_eq] at hhigh
  push_cast at hhigh
  refine le_of_mul_le_mul_right ?_ (mul_pos (by norm_num : (0 : ℚ) < 4) hscale)
  linarith

theorem pos_of_contains {v : ℚ} (hv : i.Contains v) : 0 < v := by
  have hden : (0 : ℚ) < i.den := by exact_mod_cast h.den_pos
  have hlow : (0 : ℚ) < i.low := by
    rw [h.low_eq]
    exact_mod_cast Nat.mul_pos h.low_pos h.scale_pos
  exact pos_of_mul_pos_left (hlow.trans_le hv.low_le) hden.le

/-- The interval is wider than a ten-quadrillionth part of its value. -/
theorem value_lt_width (hx : x.Canonical) : (i.value : ℚ) < 10 ^ 16 * (i.high - i.low) := by
  have hbits := hx.significand_lt
  have hnat : 4 * x.significand < 10 ^ 16 * (4 * x.significand + 2 - low) := by
    unfold leastNormal at hbits
    -- a half on both sides, or a quarter below
    rcases h.gap with hgap | ⟨hgap, hpower⟩
    · omega
    · unfold leastNormal at hpower
      omega
  have hlow := h.low_lt
  rw [h.value_eq, h.high_eq, h.low_eq]
  have hcast : ((4 * x.significand * scale : ℕ) : ℚ) <
      (10 ^ 16 * (4 * x.significand + 2 - low) * scale : ℕ) := by
    exact_mod_cast Nat.mul_lt_mul_of_pos_right hnat h.scale_pos
  refine hcast.trans_eq ?_
  rw [Nat.cast_mul, Nat.cast_mul, Nat.cast_sub (by omega)]
  push_cast
  ring

end Interval.Around

/-! ### The search -/

/-- The search ends at a hit, or no grid that it tried has one. -/
theorem shortestFrom_cases (i : Interval) (magnitude : ℤ) (digits tries : ℕ) :
    (∃ d k, shortestFrom i magnitude digits tries = (d, k) ∧ (i.onGrid k).nearest = some d) ∨
      ∀ n < tries, (i.onGrid (magnitude - (digits + n : ℕ) + 1)).nearest = none := by
  induction tries generalizing digits with
  | zero => exact .inr fun n hn => absurd hn (Nat.not_lt_zero n)
  | succ tries ih =>
    -- this many digits, or one of the later tries
    rw [shortestFrom]
    rcases hnear : (i.onGrid (magnitude - (digits : ℤ) + 1)).nearest with - | d
    · rcases ih (digits + 1) with ⟨d, k, hfrom, hd⟩ | hnone
      · exact .inl ⟨d, k, by simpa only [hnear] using hfrom, hd⟩
      · refine .inr fun n hn => ?_
        cases n with
        | zero => exact hnear
        | succ n =>
          have := hnone n (Nat.lt_of_succ_lt_succ hn)
          rwa [Nat.add_right_comm] at this
    · exact .inl ⟨d, _, rfl, hnear⟩

theorem stripZeros_value (d : ℕ) (k : ℤ) (n : ℕ) :
    ((stripZeros d k n).1 : ℚ) * 10 ^ (stripZeros d k n).2 = d * 10 ^ k := by
  induction n generalizing d k with
  | zero => rfl
  | succ n ih =>
    rw [stripZeros]
    split
    · rename_i h
      have hten : d = d / 10 * 10 := by omega
      rw [ih, zpow_add_one₀ (by norm_num), mul_comm _ (10 : ℚ), ← mul_assoc]
      congr 1
      exact_mod_cast hten.symm
    · rfl

/-- Seventeen digits are enough: the shortest decimal lies in the interval of its double. -/
theorem contains_shortest {x : Binary64} (hx : x.Canonical) (hpos : 0 < x.significand) :
    x.interval.Contains (x.shortest.1 * 10 ^ x.shortest.2) := by
  obtain ⟨scale, low, haround⟩ := interval_around hpos
  have hzero : x.isZero = false := by
    simp [isZero, hpos.ne']
  unfold shortest
  simp only [hzero, Bool.false_eq_true, if_false]
  rw [stripZeros_value]
  rcases shortestFrom_cases x.interval (decimalMagnitude x.interval.value x.interval.den) 1 17 with
    ⟨d, k, hfrom, hnear⟩ | hnone
  · rw [hfrom]
    exact Interval.contains_of_nearest hnear
  · -- a step of seventeen digits is a ten-quadrillionth part of the value at most
    have hvalue : 0 < x.interval.value := (Nat.zero_le _).trans_lt haround.proper.low_lt
    have hden : (0 : ℚ) < x.interval.den := by exact_mod_cast haround.den_pos
    have hwidth := Interval.width_of_onGrid haround.proper (hnone 16 (by decide))
    have hstep := decimalMagnitude_le hvalue haround.den_pos
    rw [le_div_iff₀ hden] at hstep
    have hgrid : (10 : ℚ) ^ (decimalMagnitude x.interval.value x.interval.den -
        ((1 + 16 : ℕ) : ℤ) + 1) * 10 ^ 16 =
        10 ^ decimalMagnitude x.interval.value x.interval.den := by
      rw [← zpow_natCast, ← zpow_add₀ (by norm_num)]
      congr 1
      omega
    have hlt := haround.value_lt_width hx
    rw [← hgrid] at hstep
    exact absurd hwidth (by linarith)

end Courier.Binary64

import Courier.Proofs.Json.Numerals
import Courier.Proofs.Json.RoundTrip
import Courier.Proofs.Number.Shortest
import Mathlib.Data.Nat.Digits.Lemmas

/-!
Texts of doubles.

The text of a double is that of a numeral, with a decimal point or an exponent according to its
magnitude.  What numeral it is, and that this denotes the digits and the power of ten that the text
was made of, is said by `Writes`, with one lemma for each of the four forms: digits before the point
(`writes_shifted`), on both sides of it (`writes_split`), behind it (`writes_small`), and digits
with an exponent (`writes_scientific`).  `exists_writes` says that these are all.  What digits they
are does not matter here.

The numeral says something unless it is too large.  It is hardly larger than the double, since the
shortest decimal lies in the interval of the numbers that round to it.  But reading is allowed two
errors of rounding, and for the three greatest doubles this is too close to the overflow
(`scaled_lt_overflow`).  There it is computed (`parse_text_last`), once for each sign.

Main statement: the text of a sound number says some number (`Number.Sound.legible`).
-/

namespace Courier

open Json

/-! ### Decimal digits -/

/-- The decimal digits of a number, the most significant first. -/
def decimalDigits (n : ℕ) : List ℕ := if n = 0 then [0] else (Nat.digits 10 n).reverse

theorem toDigits_eq (n : ℕ) : Nat.toDigits 10 n = writeDigits (decimalDigits n) := by
  induction n using Nat.strongRecOn with
  | ind n ih =>
    by_cases hlt : n < 10
    · rw [Nat.toDigits_of_lt_base hlt]
      interval_cases n <;> rfl
    · have hpos : n ≠ 0 := by omega
      have hdiv : n / 10 ≠ 0 := by omega
      rw [Nat.toDigits_eq_if (by decide), if_neg hlt, ih (n / 10) (by omega)]
      rw [decimalDigits, decimalDigits, if_neg hpos, if_neg hdiv,
        Nat.digits_def' (by decide) (Nat.pos_of_ne_zero hpos), List.reverse_cons]
      simp [writeDigits]

theorem toList_toString (n : ℕ) : (toString n).toList = writeDigits (decimalDigits n) := by
  rw [Nat.toString_eq_ofList_toDigits, String.toList_ofList, toDigits_eq]

theorem length_decimalDigits (n : ℕ) : (toString n).length = (decimalDigits n).length := by
  rw [← String.length_toList, toList_toString, writeDigits, List.length_map]

theorem decimalDigits_lt (n : ℕ) : ∀ d ∈ decimalDigits n, d < 10 := by
  unfold decimalDigits
  split
  · simp
  · intro d hd
    exact Nat.digits_lt_base (by decide) (List.mem_reverse.mp hd)

theorem decimalDigits_ne_nil (n : ℕ) : decimalDigits n ≠ [] := by
  unfold decimalDigits
  split
  · exact List.cons_ne_nil _ _
  · rename_i h
    simpa [Nat.digits_ne_nil_iff_ne_zero] using h

/-- No zero leads the digits of a number but zero. -/
theorem decimalDigits_lead {n : ℕ} (hn : n ≠ 0) : ∃ d ds, decimalDigits n = d :: ds ∧ 0 < d := by
  have hne : Nat.digits 10 n ≠ [] := Nat.digits_ne_nil_iff_ne_zero.mpr hn
  refine ⟨(Nat.digits 10 n).getLast hne, (Nat.digits 10 n).dropLast.reverse, ?_,
    Nat.pos_of_ne_zero (Nat.getLast_digit_ne_zero 10 hn)⟩
  rw [decimalDigits, if_neg hn]
  conv_lhs => rw [← List.dropLast_append_getLast hne]
  rw [List.reverse_append, List.reverse_singleton, List.singleton_append]

/-! #### The number of digits -/

theorem digitsValue_eq (ds : List ℕ) : digitsValue ds = Nat.ofDigits 10 ds.reverse := by
  rw [Nat.ofDigits_eq_foldr, List.foldr_reverse, digitsValue]
  congr 1
  funext n d
  simp [add_comm]

theorem digitsValue_decimalDigits (n : ℕ) : digitsValue (decimalDigits n) = n := by
  unfold decimalDigits
  split
  · rename_i h
    rw [h]
    rfl
  · rw [digitsValue_eq, List.reverse_reverse, Nat.ofDigits_digits]

theorem digitsValue_append_zeros (ds : List ℕ) (n : ℕ) :
    digitsValue (ds ++ List.replicate n 0) = digitsValue ds * 10 ^ n := by
  rw [digitsValue_eq, List.reverse_append, List.reverse_replicate, Nat.ofDigits_append,
    Nat.ofDigits_replicate_zero, List.length_replicate, Nat.zero_add, Nat.mul_comm, digitsValue_eq]

theorem digitsValue_zeros_append (n : ℕ) (ds : List ℕ) :
    digitsValue (List.replicate n 0 ++ ds) = digitsValue ds := by
  rw [digitsValue_eq, List.reverse_append, List.reverse_replicate,
    Nat.ofDigits_append_replicate_zero, digitsValue_eq]

/-! ### The numeral of a double -/

/-- Whether a numeral is written as a text and denotes a decimal.

* `length_le`: the digits before the point fit in 64 bits. -/
structure Writes (n : Numeral) (text : List Char) (d : ℕ) (k : ℤ) : Prop where
  written_eq : n.written = text
  regular : n.Regular
  pointed : n.pointed = true
  length_le : n.whole.length ≤ 19
  magnitude_eq : n.magnitude = d * 10 ^ k

theorem Writes.of_eq {n : Numeral} {text text' : List Char} {d : ℕ} {k : ℤ} (h : Writes n text d k)
    (htext : text = text') : Writes n text' d k :=
  htext ▸ h

/-- The sign in front of a double. -/
def signText (negative : Bool) : List Char := if negative then ['-'] else []

section Forms

variable {d : ℕ} (hd : d ≠ 0) {k : ℤ} (negative : Bool)

theorem lt_of_mem_append_zeros {ds : List ℕ} (hds : ∀ d ∈ ds, d < 10) (n : ℕ) :
    ∀ d ∈ ds ++ List.replicate n 0, d < 10 := by
  intro d hd
  rcases List.mem_append.mp hd with hd | hd
  · exact hds d hd
  · rw [List.eq_of_mem_replicate hd]
    decide

/-- A number below one. -/
theorem writes_small (hpoint : ((decimalDigits d).length : ℤ) + k ≤ 0) :
    let point := (-(((decimalDigits d).length : ℤ) + k)).toNat
    Writes ⟨negative, [0], List.replicate point 0 ++ decimalDigits d, none, true⟩
      (signText negative ++
        ('0' :: '.' :: (List.replicate point '0' ++ writeDigits (decimalDigits d)))) d k := by
  intro point
  have hdigits : ∀ d' ∈ List.replicate point 0 ++ decimalDigits d, d' < 10 := by
    intro d' hd'
    rcases List.mem_append.mp hd' with hd' | hd'
    · rw [List.eq_of_mem_replicate hd']
      decide
    · exact decimalDigits_lt d d' hd'
  constructor
  case written_eq =>
    simp [Numeral.written, signText, writeFraction, writeExponent, writeDigits, Nat.digitChar,
      decimalDigits_ne_nil]
  case regular =>
    exact ⟨by simp, hdigits, by simp, .inl rfl, by simp [decimalDigits_ne_nil]⟩
  case pointed => rfl
  case length_le => simp
  case magnitude_eq =>
    -- the zeros in front do not count
    have hvalue : digitsValue ([0] ++ (List.replicate point 0 ++ decimalDigits d)) = d := by
      rw [← List.append_assoc, ← List.replicate_one, List.replicate_append_replicate,
        digitsValue_zeros_append, digitsValue_decimalDigits]
    simp only [Numeral.magnitude, hvalue, Numeral.power, List.length_append, List.length_replicate]
    congr 2
    omega

include hd

/-- A number followed by zeros. -/
theorem writes_shifted (hk : 0 ≤ k) (hpoint : ((decimalDigits d).length : ℤ) + k ≤ 16) :
    Writes ⟨negative, decimalDigits d ++ List.replicate k.toNat 0, [0], none, true⟩
      (signText negative ++ (writeDigits (decimalDigits d) ++ List.replicate k.toNat '0' ++ ['.', '0']))
      d k where
  written_eq := by
    simp [Numeral.written, signText, writeFraction, writeExponent, writeDigits, Nat.digitChar]
  regular := by
    obtain ⟨first, rest, hdigits, hfirst⟩ := decimalDigits_lead hd
    refine ⟨lt_of_mem_append_zeros (decimalDigits_lt d) _, by simp, by simp, .inr ?_, by simp⟩
    exact ⟨first, rest ++ List.replicate k.toNat 0, by rw [hdigits, List.cons_append], hfirst⟩
  pointed := rfl
  length_le := by
    rw [List.length_append, List.length_replicate]
    omega
  magnitude_eq := by
    obtain ⟨n, rfl⟩ := Int.eq_ofNat_of_zero_le hk
    -- with the zero behind the point there is one place more
    have hvalue : digitsValue (decimalDigits d ++ List.replicate n 0 ++ [0]) = d * 10 ^ (n + 1) := by
      rw [List.append_assoc, ← List.replicate_succ', digitsValue_append_zeros,
        digitsValue_decimalDigits]
    simp only [Numeral.magnitude, Int.toNat_natCast, hvalue, Numeral.power]
    push_cast
    rw [pow_succ, zpow_natCast]
    norm_num
    ring

/-- Digits may be cut anywhere behind the first one, if a fraction or an exponent follows. -/
theorem regular_cut {point : ℕ} (hpos : 0 < point) {exponent : Option (Bool × List ℕ)}
    (hexponent : ∀ p, exponent = some p → p.2 ≠ [] ∧ ∀ d ∈ p.2, d < 10)
    (hpointed : (decimalDigits d).drop point ≠ [] ∨ exponent ≠ none) :
    Numeral.Regular ⟨negative, (decimalDigits d).take point, (decimalDigits d).drop point, exponent,
      true⟩ where
  whole_lt d' hd' := decimalDigits_lt d d' (List.mem_of_mem_take hd')
  fraction_lt d' hd' := decimalDigits_lt d d' (List.mem_of_mem_drop hd')
  exponent_lt := hexponent
  lead := by
    obtain ⟨first, rest, hdigits, hfirst⟩ := decimalDigits_lead hd
    obtain ⟨n, rfl⟩ := Nat.exists_eq_succ_of_ne_zero hpos.ne'
    exact .inr ⟨first, rest.take n, by rw [hdigits, List.take_succ_cons], hfirst⟩
  pointed_iff := by simpa using hpointed

omit hd in
theorem magnitude_cut (point : ℕ) (exponent : Option (Bool × List ℕ)) :
    let n : Numeral := ⟨negative, (decimalDigits d).take point, (decimalDigits d).drop point,
      exponent, true⟩
    n.magnitude = d * 10 ^ (n.power - ((decimalDigits d).length - point : ℕ)) := by
  intro n
  rw [Numeral.magnitude, List.take_append_drop, digitsValue_decimalDigits, List.length_drop]

/-- A number with a point between its digits. -/
theorem writes_split (hk : k < 0) (hlow : 0 < ((decimalDigits d).length : ℤ) + k)
    (hpoint : ((decimalDigits d).length : ℤ) + k ≤ 16) :
    let point := (((decimalDigits d).length : ℤ) + k).toNat
    Writes ⟨negative, (decimalDigits d).take point, (decimalDigits d).drop point, none, true⟩
      (signText negative ++ (writeDigits ((decimalDigits d).take point) ++
        '.' :: writeDigits ((decimalDigits d).drop point))) d k := by
  intro point
  -- some digits stand behind the point
  have hdrop : (decimalDigits d).drop point ≠ [] := by
    intro h
    have := List.drop_eq_nil_iff.mp h
    omega
  constructor
  case written_eq => simp [Numeral.written, signText, writeFraction, writeExponent, hdrop]
  case regular => exact regular_cut hd negative (by omega) (by simp) (.inl hdrop)
  case pointed => rfl
  case length_le => exact (List.length_take_le point _).trans (by omega)
  case magnitude_eq =>
    simp only [magnitude_cut, Numeral.power]
    congr 2
    omega

/-- A number with one digit before the point and an exponent. -/
theorem writes_scientific :
    let e := ((decimalDigits d).length : ℤ) + k - 1
    Writes ⟨negative, (decimalDigits d).take 1, (decimalDigits d).drop 1,
        some (decide (e < 0), decimalDigits e.natAbs), true⟩
      (signText negative ++ (writeDigits ((decimalDigits d).take 1) ++
        (writeFraction ((decimalDigits d).drop 1) ++
          'e' :: (if e < 0 then '-' else '+') :: writeDigits (decimalDigits e.natAbs)))) d k := by
  intro e
  constructor
  case written_eq => simp [Numeral.written, signText, writeExponent]
  case regular =>
    refine regular_cut hd negative Nat.one_pos ?_ (.inr (by simp))
    rintro p ⟨⟩
    exact ⟨decimalDigits_ne_nil _, decimalDigits_lt _⟩
  case pointed => rfl
  case length_le => exact (List.length_take_le 1 _).trans (by decide)
  case magnitude_eq =>
    -- the sign of the exponent is written apart from its digits
    have hpower : (if decide (e < 0) = true then -(e.natAbs : ℤ) else e.natAbs) = e := by
      split <;> rename_i h <;> simp only [decide_eq_true_eq] at h <;> omega
    have hlength := List.length_pos_of_ne_nil (decimalDigits_ne_nil d)
    simp only [magnitude_cut, Numeral.power, digitsValue_decimalDigits, hpower]
    congr 2
    omega

end Forms

theorem positional_eq (digits : String) (k : ℤ) (places : ℕ) :
    positional digits k places =
      if 0 ≤ k then
        digits ++ String.ofList (List.replicate k.toNat '0') ++
          (if places = 0 then "" else "." ++ String.ofList (List.replicate places '0'))
      else if 0 < digits.length + k then
        String.ofList (digits.toList.take (digits.length + k).toNat) ++ "." ++
          String.ofList (digits.toList.drop (digits.length + k).toNat)
      else "0." ++ String.ofList (List.replicate (-(digits.length + k)).toNat '0') ++ digits :=
  rfl

/-- The digits in front of an exponent, with a point behind the first one. -/
theorem toList_mantissa (d : ℕ) : (if (decimalDigits d).length = 1 then toString d
    else String.ofList ((toString d).toList.take 1) ++ "." ++
      String.ofList ((toString d).toList.drop 1)).toList =
    writeDigits ((decimalDigits d).take 1) ++ writeFraction ((decimalDigits d).drop 1) := by
  have htext := toList_toString d
  split
  · rename_i hlength
    rw [htext, writeFraction, if_pos (List.drop_eq_nil_of_le hlength.le), List.append_nil,
      List.take_of_length_le hlength.le]
  · rename_i hlength
    have hdrop : (decimalDigits d).drop 1 ≠ [] := by
      have := List.length_pos_of_ne_nil (decimalDigits_ne_nil d)
      intro h
      have := List.drop_eq_nil_iff.mp h
      omega
    simp only [String.toList_append, String.toList_ofList, htext, writeFraction, hdrop, if_false,
      writeDigits, List.map_take, List.map_drop, List.append_assoc]
    rfl

/-- Zero is written as `0.0`. -/
theorem writes_zero (negative : Bool) : Writes ⟨negative, [0], [0], none, true⟩
    (signText negative ++ ['0', '.', '0']) 0 0 where
  written_eq := by cases negative <;> rfl
  regular := ⟨by simp, by simp, by simp, .inl rfl, by simp⟩
  pointed := rfl
  length_le := by simp
  magnitude_eq := by simp [Numeral.magnitude, digitsValue]

/-- The text of a double is a numeral that denotes its shortest decimal. -/
theorem Binary64.exists_writes {x : Binary64} (hx : x.Canonical) :
    ∃ n, Writes n x.text.toList x.shortest.1 x.shortest.2 := by
  by_cases hzero : x.significand = 0
  · have hisZero : x.isZero = true := by simp [isZero, hzero]
    have hshortest : x.shortest = (0, 0) := if_pos hisZero
    rw [hshortest]
    refine ⟨_, (writes_zero x.negative).of_eq ?_⟩
    simp only [text, hisZero, if_true, signText]
    cases x.negative <;> rfl
  have hisZero : x.isZero = false := by simp [isZero, hzero]
  have hpos := Nat.pos_of_ne_zero hzero
  -- a decimal of zero would not round to a double that is not zero
  have hd : x.shortest.1 ≠ 0 := by
    intro hd
    obtain ⟨scale, low, haround⟩ := interval_around hpos
    have := haround.pos_of_contains (contains_shortest hx hpos)
    simp [hd] at this
  unfold text
  rcases hshortest : x.shortest with ⟨d, k⟩
  rw [hshortest] at hd
  have htext := toList_toString d
  have hsign : (if x.negative then "-" else "").toList = signText x.negative := by
    cases x.negative <;> rfl
  simp only [hisZero, Bool.false_eq_true, if_false, String.toList_append, hsign, positional_eq,
    length_decimalDigits]
  -- where the point stands: behind the digits, among them, before them, or with an exponent
  split
  · rename_i hpoint
    split
    · rename_i hk
      refine ⟨_, (writes_shifted hd x.negative hk hpoint.2).of_eq ?_⟩
      simp only [String.toList_append, String.toList_ofList, htext]
      rfl
    · rename_i hk
      split
      · rename_i hlow
        refine ⟨_, (writes_split hd x.negative (not_le.mp hk) hlow hpoint.2).of_eq ?_⟩
        simp only [String.toList_append, String.toList_ofList, htext, writeDigits, List.map_take,
          List.map_drop, List.append_assoc]
        rfl
      · rename_i hlow
        refine ⟨_, (writes_small x.negative (not_lt.mp hlow)).of_eq ?_⟩
        simp only [String.toList_append, String.toList_ofList, htext]
        rfl
  · refine ⟨_, (writes_scientific hd x.negative).of_eq ?_⟩
    have hexponent (e : ℤ) : (if e < 0 then "-" else "+").toList = [if e < 0 then '-' else '+'] := by
      split <;> rfl
    simp only [String.toList_append, toList_mantissa, hexponent]
    simp only [toList_toString, List.append_assoc]
    rfl

/-! ### Reading a double back -/

namespace Binary64

/-- Two errors of rounding lead out of the range only from its last three doubles. -/
theorem scaled_lt_overflow {m : ℕ} {e : ℤ} (hm : m < 2 * leastNormal) (he : e ≤ greatestExponent)
    (h : e < greatestExponent ∨ m + 4 ≤ 2 * leastNormal) :
    ((m : ℚ) + 1 / 2) * 2 ^ e * (1 + 1 / (2 * leastNormal)) ^ 2 < overflow := by
  rw [overflow]
  have hpos : (0 : ℚ) < 2 ^ greatestExponent := zpow_pos two_pos _
  have hpow : (2 : ℚ) ^ e ≤ 2 ^ greatestExponent := zpow_le_zpow_right₀ one_le_two he
  have hless (h : e < greatestExponent) : (2 : ℚ) ^ e * 2 ≤ 2 ^ greatestExponent := by
    rw [← zpow_add_one₀ two_ne_zero]
    exact zpow_le_zpow_right₀ one_le_two h
  have hbits : (m : ℚ) + 1 ≤ (2 * leastNormal : ℕ) := by exact_mod_cast hm
  push_cast at hbits
  generalize (2 : ℚ) ^ greatestExponent = p at *
  rcases h with h | hfew
  · -- below the greatest exponent there is room for a factor of two
    have hpow := hless h
    have hfactor : (1 + 1 / (2 * (leastNormal : ℚ))) ^ 2 < 2 := by norm_num [leastNormal]
    have hlarge : (0 : ℚ) < 2 * leastNormal - 1 / 2 := by norm_num [leastNormal]
    calc ((m : ℚ) + 1 / 2) * 2 ^ e * (1 + 1 / (2 * leastNormal)) ^ 2
        ≤ (2 * (leastNormal : ℚ) - 1 / 2) * 2 ^ e * (1 + 1 / (2 * leastNormal)) ^ 2 := by
          gcongr
          linarith
      _ < (2 * (leastNormal : ℚ) - 1 / 2) * 2 ^ e * 2 := by gcongr
      _ ≤ (2 * (leastNormal : ℚ) - 1 / 2) * p := by
          rw [mul_assoc]
          gcongr
  · -- both errors together are less than three last places
    have hfew : (m : ℚ) + 4 ≤ (2 * leastNormal : ℕ) := by exact_mod_cast hfew
    have hfactor : (2 * leastNormal - 7 / 2) * (1 + 1 / (2 * (leastNormal : ℚ))) ^ 2 <
        2 * leastNormal - 1 / 2 := by norm_num [leastNormal]
    push_cast at hfew
    have hbits : (m : ℚ) + 1 / 2 ≤ 2 * (leastNormal : ℚ) - 7 / 2 := by linarith
    have hlarge : (0 : ℚ) ≤ 2 * leastNormal - 7 / 2 := by norm_num [leastNormal]
    calc ((m : ℚ) + 1 / 2) * 2 ^ e * (1 + 1 / (2 * leastNormal)) ^ 2
        ≤ (2 * (leastNormal : ℚ) - 7 / 2) * p * (1 + 1 / (2 * leastNormal)) ^ 2 := by gcongr
      _ = (2 * (leastNormal : ℚ) - 7 / 2) * (1 + 1 / (2 * leastNormal)) ^ 2 * p := by
          ring
      _ < (2 * (leastNormal : ℚ) - 1 / 2) * p := by gcongr

theorem decimalMagnitude_of_le {num den : ℕ} (h : den ≤ num) :
    decimalMagnitude num den = ((Nat.toDigits 10 (num / den)).length : ℤ) - 1 := by
  rw [decimalMagnitude, if_pos h, length_toString]

theorem shortest_of_magnitude {x : Binary64} (hzero : x.isZero = false) {magnitude : ℤ}
    (h : decimalMagnitude x.interval.value x.interval.den = magnitude) :
    x.shortest = stripZeros (shortestFrom x.interval magnitude 1 17).1
      (shortestFrom x.interval magnitude 1 17).2 20 := by
  simp only [shortest, hzero, Bool.false_eq_true, if_false, h]

/-- The doubles at the end of the range, the greatest first. -/
def last (negative : Bool) (i : ℕ) : Binary64 :=
  ⟨negative, 2 * leastNormal - 1 - i, greatestExponent⟩

theorem shortest_last {i : ℕ} (hi : i < 3) (negative : Bool) :
    (last negative i).shortest = (17976931348623157 - 2 * i, 292) := by
  -- the digits are counted without writing the number down
  have hmagnitude : ∀ i < 3, ∀ negative, (last negative i).isZero = false ∧
      (last negative i).interval.den ≤ (last negative i).interval.value ∧
      ((Nat.toDigits 10 ((last negative i).interval.value / (last negative i).interval.den)).length :
        ℤ) - 1 = 308 := by
    decide +kernel
  have hsearch : ∀ i < 3, ∀ negative,
      stripZeros (shortestFrom (last negative i).interval 308 1 17).1
        (shortestFrom (last negative i).interval 308 1 17).2 20 =
      (17976931348623157 - 2 * i, 292) := by
    decide +kernel
  obtain ⟨hzero, hle, hlength⟩ := hmagnitude i hi negative
  have hmagnitude := (decimalMagnitude_of_le hle).trans hlength
  rw [shortest_of_magnitude hzero hmagnitude]
  exact hsearch i hi negative

/-- The last three doubles are read back, too, as one of them. -/
theorem parse_text_last : ∀ i < 3, ∀ negative, ∃ j < 3,
    parse (last negative i).text = .ok (.number (.real (last negative j))) := by
  intro i hi negative
  rw [text, shortest_last hi]
  revert i negative
  decide +kernel

end Binary64

namespace Json

open Binary64

/-- Every number that a text can say has a text that says a number. -/
theorem Number.Sound.legible {n : Number} (h : n.Sound) : n.Legible := by
  cases n with
  | whole n => exact ⟨.ofInt n, _, tokens_whole n, Numeral.value?_ofInt h⟩
  | real x =>
    have hx : x.Canonical := h
    by_cases hlast : x.exponent < greatestExponent ∨ x.significand + 4 ≤ 2 * leastNormal
    · -- the text of the double is a numeral, and not too large for two errors of rounding
      obtain ⟨n, hwrites⟩ := exists_writes hx
      have hsmall : n.magnitude * (1 + 1 / (2 * leastNormal)) ^ 2 < overflow := by
        rw [hwrites.magnitude_eq]
        refine lt_of_le_of_lt ?_ (scaled_lt_overflow hx.significand_lt hx.le_greatest hlast)
        refine mul_le_mul_of_nonneg_right ?_ (by positivity)
        by_cases hzero : x.significand = 0
        · have hshortest : x.shortest = (0, 0) := if_pos (by simp [isZero, hzero])
          rw [hshortest, Nat.cast_zero, zero_mul]
          positivity
        · have hpos := Nat.pos_of_ne_zero hzero
          obtain ⟨scale, low, haround⟩ := interval_around hpos
          exact haround.le_of_contains (contains_shortest hx hpos)
      obtain ⟨v, hv⟩ := Numeral.exists_value? hwrites.pointed hwrites.regular.whole_lt
        hwrites.length_le hsmall
      refine ⟨n, v, ?_, hv⟩
      rw [Number.print, ← hwrites.written_eq]
      exact Numeral.tokens_written hwrites.regular
    · -- one of the three greatest ones, of either sign
      obtain ⟨i, hi, negative, rfl⟩ : ∃ i < 3, ∃ negative, x = last negative i := by
        have hbits := hx.significand_lt
        have hexponent := hx.le_greatest
        refine ⟨2 * leastNormal - 1 - x.significand, by omega, x.negative, ?_⟩
        obtain ⟨negative, m, e⟩ := x
        simp only [last, Binary64.mk.injEq, true_and] at *
        omega
      obtain ⟨j, -, hparse⟩ := parse_text_last i hi negative
      have htext : String.ofList (Number.real (last negative i)).print = (last negative i).text :=
        String.ofList_toList
      rw [← htext] at hparse
      obtain ⟨m, hm, hvalue⟩ := tokens_of_parse hparse
      exact ⟨m, _, hm, hvalue⟩

end Json

end Courier

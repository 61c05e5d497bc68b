import Courier.Proofs.Time.Stored

/-!
Timestamps in data, read back.

The loose reader takes numbers of one or two digits and years with a sign.  So it reads every part
of the text of an instant, in whatever year (`signedYear_yearText`) and with however many digits in
the fraction (`fraction_fractionText`).

It reads as many digits as it may, and so each part is read as it was written only if what follows
is no digit (`Stops`): a dash, a colon, the `T` before the time, or the end of the fraction.  Years
of more than four digits are written with a sign, and only then more than four digits are read.

Main statement: the text of an instant in data is read back as the instant
(`Timestamp.lenient?_text`).  It holds of all instants that can be represented and are proper ones,
leap seconds included.
-/

namespace Courier.Time

/-! ### Numbers -/

theorem length_digits (width n : Nat) : (digits width n).length = width := by
  induction width generalizing n with
  | zero => rfl
  | succ width ih => rw [digits, List.length_append, ih, List.length_singleton]

/-- A padded number is its digits, of which there may be more than the width asks for. -/
theorem exists_toList_padded (width n : Nat) : ∃ more, n < Nat.pow 10 (width + 1 + more) ∧
    (padded (width + 1) n).toList = digits (width + 1 + more) n := by
  -- a number that fits is padded; one that does not has all its digits and no zeros
  by_cases h : n < Nat.pow 10 (width + 1)
  · exact ⟨0, h, toList_padded h⟩
  · have hdigits : n < Nat.pow 10 (Nat.toDigits 10 n).length := by
      show n < 10 ^ (Nat.toDigits 10 n).length
      exact (Nat.length_toDigits_le_iff (by decide) Nat.length_toDigits_pos).mp (Nat.le_refl _)
    have hlength : width + 1 ≤ (Nat.toDigits 10 n).length := by
      by_contra hshort
      have hpow : Nat.pow 10 (Nat.toDigits 10 n).length ≤ Nat.pow 10 (width + 1) :=
        Nat.pow_le_pow_right (by decide) (Nat.le_of_not_le hshort)
      exact h (Nat.lt_of_lt_of_le hdigits hpow)
    obtain ⟨more, hmore⟩ := Nat.exists_eq_add_of_le hlength
    rw [hmore] at hdigits
    refine ⟨more, hdigits, ?_⟩
    have hsplit : width + 1 + more = width + more + 1 := Nat.add_right_comm width 1 more
    rw [hsplit] at hdigits hmore ⊢
    rw [← toDigits_eq_digits hdigits, hmore]
    have hzeros : width + 1 - (Nat.toDigits 10 n).length = 0 := by omega
    simp [padded, Nat.toString_eq_repr, Nat.repr, hzeros]

namespace Timestamp

/-- Whether the front of a text is not a digit. -/
def Stops (cs : List Char) : Prop := ∀ c, cs.head? = some c → digit? c = none

theorem takeDigits_of_stops {cs : List Char} (h : Stops cs) (limit value count : Nat) :
    takeDigits limit value count cs = (value, count, cs) := by
  cases limit with
  | zero => rfl
  | succ limit =>
    cases cs with
    | nil => rfl
    | cons c cs => rw [takeDigits, h c rfl]

/-- A number is read up to where its digits end. -/
theorem number_digits {least width n : Nat} (more : Nat) (hleast : least ≤ width)
    (hn : n < Nat.pow 10 width) {cs : List Char} (h : Stops cs) :
    number least (width + more) (digits width n ++ cs) = some (n, cs) := by
  have htake := takeDigits_digits width more 0 0 n cs
  rw [takeDigits_of_stops h, Nat.mod_eq_of_lt hn] at htake
  simp [number, htake, hleast]

/-- A text of digits does not begin with a blank or a sign. -/
theorem exists_digits_eq_cons (width n : Nat) :
    ∃ d < 10, ∃ rest, digits (width + 1) n = Nat.digitChar d :: rest := by
  induction width generalizing n with
  | zero => exact ⟨n % 10, Nat.mod_lt _ (by decide), [], rfl⟩
  | succ width ih =>
    obtain ⟨d, hd, rest, hdigits⟩ := ih (n / 10)
    exact ⟨d, hd, rest ++ [Nat.digitChar (n % 10)], by rw [digits, hdigits, List.cons_append]⟩

theorem digitChar_visible {d : Nat} (hd : d < 10) : Text.isBlank (Nat.digitChar d) = false ∧
    Nat.digitChar d ≠ '-' ∧ Nat.digitChar d ≠ '+' := by
  have key : ∀ d < 10, Text.isBlank (Nat.digitChar d) = false ∧ Nat.digitChar d ≠ '-' ∧
    Nat.digitChar d ≠ '+' := by decide
  exact key d hd

theorem skipBlanks_cons {c : Char} (h : Text.isBlank c = false) (cs : List Char) :
    skipBlanks (c :: cs) = c :: cs :=
  List.dropWhile_cons_of_neg (by simp [h])

/-- A part of two digits. -/
theorem shortNumber_padded {n : Nat} (hn : n < 100) {cs : List Char} (h : Stops cs) :
    shortNumber ((padded 2 n).toList ++ cs) = some (n, cs) := by
  have hread : number 1 2 (digits 2 n ++ cs) = some (n, cs) := number_digits 0 (by decide) hn h
  obtain ⟨d, hd, rest, hdigits⟩ := exists_digits_eq_cons 1 n
  rw [toList_padded hn, shortNumber, hdigits, List.cons_append,
    skipBlanks_cons (digitChar_visible hd).1, ← List.cons_append, ← hdigits]
  exact hread

/-! ### Years and fractions -/

/-- A year is read in whatever form it is written. -/
theorem signedYear_yearText (y : Int) {cs : List Char} (h : Stops cs) :
    signedYear ((yearText y).toList ++ cs) = some (y, cs) := by
  rw [yearText]
  split
  · -- years of four digits have no sign
    rename_i hyear
    have hn : y.toNat < Nat.pow 10 4 := by
      show y.toNat < 10000
      omega
    have hread : number 1 4 (digits 4 y.toNat ++ cs) = some (y.toNat, cs) :=
      number_digits 0 (by decide) hn h
    obtain ⟨d, hd, rest, hdigits⟩ := exists_digits_eq_cons 3 y.toNat
    obtain ⟨hblank, hminus, hplus⟩ := digitChar_visible hd
    rw [toList_padded hn, signedYear]
    rw [hdigits, List.cons_append] at hread ⊢
    rw [skipBlanks_cons hblank]
    split
    · rename_i heq
      exact absurd (List.cons.inj heq).1 hminus
    · rename_i heq
      exact absurd (List.cons.inj heq).1 hplus
    · rw [hread, Option.map_some]
      simp only [Int.toNat_of_nonneg hyear.1]
  · -- behind a sign all digits are taken
    obtain ⟨more, hn, hpadded⟩ := exists_toList_padded 3 y.natAbs
    have hread : number 1 (digits (3 + 1 + more) y.natAbs ++ cs).length
        (digits (3 + 1 + more) y.natAbs ++ cs) = some (y.natAbs, cs) := by
      rw [List.length_append, length_digits]
      exact number_digits cs.length (by omega) hn h
    split
    · rename_i hneg
      have hsign : signedYear ('-' :: (digits (3 + 1 + more) y.natAbs ++ cs)) =
          some (-(y.natAbs : Int), cs) := by
        rw [signedYear, skipBlanks_cons rfl]
        simp only [hread, Option.map_some]
      have hy : -(y.natAbs : Int) = y := by omega
      rw [hy] at hsign
      simpa [hpadded] using hsign
    · rename_i hneg
      have hsign : signedYear ('+' :: (digits (3 + 1 + more) y.natAbs ++ cs)) =
          some ((y.natAbs : Int), cs) := by
        rw [signedYear, skipBlanks_cons rfl]
        simp only [hread, Option.map_some]
      have hy : (y.natAbs : Int) = y := by omega
      rw [hy] at hsign
      simpa [hpadded] using hsign

/-- A point and some digits are read as so many places. -/
theorem fraction_digits (width n : Nat) (hwidth : width < 9) (hn : n < Nat.pow 10 (width + 1)) :
    fraction ('.' :: ((padded (width + 1) n).toList ++ ['Z'])) =
      some (n * Nat.pow 10 (9 - (width + 1)), ['Z']) := by
  have hstops : Stops ['Z'] := by
    intro c hc
    obtain rfl : 'Z' = c := Option.some.inj hc
    rfl
  have htake := takeDigits_digits (width + 1) (9 - (width + 1)) 0 0 n ['Z']
  rw [takeDigits_of_stops hstops, Nat.mod_eq_of_lt hn, Nat.add_sub_of_le hwidth] at htake
  simp [fraction, toList_padded hn, htake, digit?]

/-- The fraction is read with as many digits as are exact. -/
theorem fraction_fractionText (a : Instant) :
    fraction (a.fractionText.toList ++ ['Z']) = some (a.fraction, ['Z']) := by
  have hlt : a.fraction < 1000000000 := Nat.mod_lt _ (by decide)
  rw [Instant.fractionText]
  split
  · rename_i hzero
    rw [hzero]
    rfl
  · -- three digits, six, or nine, whichever are exact
    split
    · rename_i hmillis
      have hread := fraction_digits 2 (a.fraction / 1000000) (by decide) (by
        show a.fraction / 1000000 < 1000
        omega)
      have hexact : a.fraction / 1000000 * Nat.pow 10 6 = a.fraction :=
        Nat.div_mul_cancel (Nat.dvd_of_mod_eq_zero hmillis)
      rw [hexact] at hread
      simpa using hread
    · split
      · rename_i hmicros
        have hread := fraction_digits 5 (a.fraction / 1000) (by decide) (by
          show a.fraction / 1000 < 1000000
          omega)
        have hexact : a.fraction / 1000 * Nat.pow 10 3 = a.fraction :=
          Nat.div_mul_cancel (Nat.dvd_of_mod_eq_zero hmicros)
        rw [hexact] at hread
        simpa using hread
      · have hread := fraction_digits 8 a.fraction (by decide) hlt
        rw [Nat.sub_self] at hread
        simpa using hread

/-! ### Instants -/

/-- The characters of an instant in data, part by part. -/
theorem toList_text (a : Instant) :
    a.text.toList = (yearText a.date.year).toList ++ '-' :: ((padded 2 a.date.month).toList ++
      '-' :: ((padded 2 a.date.day).toList ++ 'T' :: ((padded 2 (a.secondOfDay / 3600)).toList ++
      ':' :: ((padded 2 (a.secondOfDay / 60 % 60)).toList ++
      ':' :: ((padded 2 (a.secondOfDay % 60 + (if a.isLeap then 1 else 0))).toList ++
      (a.fractionText.toList ++ ['Z'])))))) := by
  simp [Instant.text, Instant.dateText, Date.text, Instant.clockText]

theorem stops_cons {c : Char} (h : digit? c = none) (cs : List Char) : Stops (c :: cs) := by
  intro d hd
  obtain rfl := Option.some.inj hd
  exact h

theorem stops_fractionText (a : Instant) : Stops (a.fractionText.toList ++ ['Z']) := by
  rw [Instant.fractionText]
  split
  · exact stops_cons rfl _
  · have hpoint (s : String) : Stops (("." ++ s).toList ++ ['Z']) := by
      rw [String.toList_append]
      exact stops_cons rfl _
    split
    · exact hpoint _
    · split <;> exact hpoint _

theorem bind_of_eq_some {α β : Type} {o : Option α} {a : α} (h : o = some a)
    {f : α → Option β} : (o >>= f) = f a := by
  rw [h]
  rfl

/-- The text of an instant in data is read back as the instant. -/
theorem lenient?_text {a : Instant} (ha : a.Proper) (hrange : a.Representable) :
    lenient? a.text = some a := by
  obtain ⟨hmonth, hday⟩ : a.date.month ≤ 12 ∧ a.date.day ≤ 31 := Date.ofDays_le a.days
  have hsecond := a.secondOfDay_lt
  have hclock : a.secondOfDay / 3600 < 100 ∧ a.secondOfDay / 60 % 60 < 100 ∧
      a.secondOfDay % 60 + (if a.isLeap then 1 else 0) < 100 := by
    split <;> omega
  have hdash (cs : List Char) : Stops ('-' :: cs) := stops_cons rfl cs
  have hletter (cs : List Char) : Stops ('T' :: cs) := stops_cons rfl cs
  have hcolon (cs : List Char) : Stops (':' :: cs) := stops_cons rfl cs
  have hmonthLt := Nat.lt_of_le_of_lt hmonth (by decide : 12 < 100)
  have hdayLt := Nat.lt_of_le_of_lt hday (by decide : 31 < 100)
  rw [lenient?, toList_text]
  -- one part after the other
  refine (bind_of_eq_some (signedYear_yearText _ (hdash _))).trans ?_
  refine (bind_of_eq_some rfl).trans ?_
  refine (bind_of_eq_some (shortNumber_padded hmonthLt (hdash _))).trans ?_
  refine (bind_of_eq_some rfl).trans ?_
  refine (bind_of_eq_some (shortNumber_padded hdayLt (hletter _))).trans ?_
  refine (bind_of_eq_some (separator_cons _)).trans ?_
  refine (bind_of_eq_some (shortNumber_padded hclock.1 (hcolon _))).trans ?_
  refine (bind_of_eq_some rfl).trans ?_
  refine (bind_of_eq_some (shortNumber_padded hclock.2.1 (hcolon _))).trans ?_
  refine (bind_of_eq_some rfl).trans ?_
  refine (bind_of_eq_some (shortNumber_padded hclock.2.2 (stops_fractionText a))).trans ?_
  refine (bind_of_eq_some (fraction_fractionText a)).trans ?_
  refine (bind_of_eq_some rfl).trans ?_
  exact instant?_parts ha hrange

end Timestamp
end Courier.Time

import Courier.Proofs.Time.Calendar
import Courier.Proofs.Time.Order
import Courier.Time.Timestamp
import Mathlib.Tactic.ByContra

/-!
Timestamps read back.

A stored text is made of numbers with a fixed number of digits and signs between them.  Each number
is written with leading zeros (`toList_padded`) and read as itself, whatever stands behind it
(`number_padded`, `fraction_padded`).  So the text of an instant of the years 0 to 9999 is read as
its parts (`strict?_stored`), and these make up the instant again (`instant?_parts`).  The year of
any other instant has a sign or more digits, and its text cannot be read (`year_of_strict?_stored`).

During a leap second the text shows a second 60, while the instant keeps 59 and has more
nanoseconds.  This goes both ways only if leap seconds come at the end of a minute, which is what
`Instant.Proper` asks for.

Main statement: when the text that the catalog keeps of an instant can be read, it is read as this
instant (`Timestamp.eq_of_strict?_stored`).
-/

namespace Courier.Time

/-! ### Numbers of fixed width -/

/-- The last digits of a number, as many as the width says. -/
def digits : (width : Nat) → Nat → List Char
  | 0, _ => []
  | width + 1, n => digits width (n / 10) ++ [Nat.digitChar (n % 10)]

theorem digits_zero (width : Nat) : digits width 0 = List.replicate width '0' := by
  induction width with
  | zero => rfl
  | succ width ih =>
    rw [digits, Nat.zero_div, ih, List.replicate_succ']
    rfl

theorem toDigits_eq_digits {width n : Nat} (h : n < Nat.pow 10 (width + 1)) :
    List.replicate (width + 1 - (Nat.toDigits 10 n).length) '0' ++ Nat.toDigits 10 n =
      digits (width + 1) n := by
  induction width generalizing n with
  | zero =>
    have hn : n < 10 := h
    rw [Nat.toDigits_of_lt_base hn, digits, Nat.mod_eq_of_lt hn]
    rfl
  | succ width ih =>
    -- one digit with zeros before it, or all digits but the last and then the last
    by_cases hn : n < 10
    · rw [Nat.toDigits_of_lt_base hn, digits, Nat.mod_eq_of_lt hn, Nat.div_eq_of_lt hn, digits_zero]
      rfl
    · have hdiv : n / 10 < Nat.pow 10 (width + 1) :=
        Nat.div_lt_of_lt_mul (Nat.mul_comm _ 10 ▸ h)
      have hstep : Nat.toDigits 10 n = Nat.toDigits 10 (n / 10) ++ [Nat.digitChar (n % 10)] := by
        rw [Nat.toDigits_eq_if (by decide), if_neg hn]
      rw [hstep, digits, ← ih hdiv, List.length_append, List.length_singleton, List.append_assoc]
      congr 2
      omega

theorem toList_padded {width n : Nat} (h : n < Nat.pow 10 (width + 1)) :
    (padded (width + 1) n).toList = digits (width + 1) n := by
  rw [← toDigits_eq_digits h]
  simp [padded, Nat.toString_eq_repr, Nat.repr]

theorem isDigit_of_mem_padded {width n : Nat} {c : Char} (h : c ∈ (padded width n).toList) :
    c.isDigit = true := by
  have hcases : c ∈ List.replicate (width - (toString n).length) '0' ++ Nat.toDigits 10 n := by
    simpa [padded, Nat.toString_eq_repr, Nat.repr] using h
  rcases List.mem_append.mp hcases with h | h
  · rw [List.eq_of_mem_replicate h]
    rfl
  · exact Nat.isDigit_of_mem_toDigits (by decide) (by decide) h

/-- A date is written without newlines. -/
theorem Date.newline_not_mem_text (d : Date) : '\n' ∉ d.text.toList := by
  have hpadded : ∀ width n, '\n' ∉ (padded width n).toList := by
    intro width n h
    exact absurd (isDigit_of_mem_padded h) (by decide)
  unfold Date.text yearText
  split
  · simp [hpadded]
  · split <;> simp [hpadded]

namespace Timestamp

theorem digit?_digitChar {d : Nat} (h : d < 10) : digit? (Nat.digitChar d) = some d := by
  have key : ∀ d < 10, digit? (Nat.digitChar d) = some d := by decide
  exact key d h

theorem takeDigits_digits (width more value count : Nat) (n : Nat) (cs : List Char) :
    takeDigits (width + more) value count (digits width n ++ cs) =
      takeDigits more (Nat.pow 10 width * value + n % Nat.pow 10 width) (count + width) cs := by
  induction width generalizing more n cs with
  | zero => simp [digits, Nat.mod_one]
  | succ width ih =>
    have hdigit : n % 10 < 10 := Nat.mod_lt _ (by decide)
    rw [digits, List.append_assoc, Nat.add_right_comm, Nat.add_assoc, ih]
    simp only [List.singleton_append, takeDigits, digit?_digitChar hdigit]
    have hvalue : 10 * (Nat.pow 10 width * value + n / 10 % Nat.pow 10 width) + n % 10 =
        Nat.pow 10 (width + 1) * value + n % Nat.pow 10 (width + 1) := by
      have hpow : Nat.pow 10 (width + 1) = 10 * Nat.pow 10 width := Nat.mul_comm _ 10
      rw [hpow, Nat.mod_mul, Nat.mul_add, ← Nat.mul_assoc]
      omega
    rw [hvalue, Nat.add_assoc]

/-- A number of fixed width is read as itself. -/
theorem number_padded {width n : Nat} (h : n < Nat.pow 10 (width + 1)) (cs : List Char) :
    number (width + 1) (width + 1) ((padded (width + 1) n).toList ++ cs) = some (n, cs) := by
  have htake := takeDigits_digits (width + 1) 0 0 0 n cs
  rw [Nat.add_zero, Nat.mod_eq_of_lt h] at htake
  simp [number, toList_padded h, htake, takeDigits]

theorem fraction_padded {n : Nat} (h : n < Nat.pow 10 9) :
    fraction ('.' :: ((padded 9 n).toList ++ ['Z'])) = some (n, ['Z']) := by
  have htake := takeDigits_digits 9 0 0 0 n ['Z']
  rw [Nat.add_zero, Nat.mod_eq_of_lt h] at htake
  simp [fraction, toList_padded h, htake, takeDigits, digit?]

theorem char_cons (c : Char) (cs : List Char) : char c (c :: cs) = some ((), cs) := if_pos rfl

theorem separator_cons (cs : List Char) : separator ('T' :: cs) = some ((), cs) := rfl

theorem offset_utc (between : List Char → Option (List Char)) (cs : List Char) :
    offset between ('Z' :: cs) = some (0, cs) := rfl

end Timestamp

/-! ### Stored instants -/

namespace Instant

/-- Whether the nanoseconds are those of a second: of a leap second only at the end of a minute. -/
def Proper (a : Instant) : Prop :=
  a.nanos < 2 * nanosPerSecond ∧ (a.isLeap = true → a.seconds % 60 = 59)

instance (a : Instant) : Decidable a.Proper := by unfold Proper; infer_instance

/-- Whether the instant lies between the first and the last one that can be represented. -/
def Representable (a : Instant) : Prop := leastSeconds ≤ a.seconds ∧ a.seconds ≤ greatestSeconds

instance (a : Instant) : Decidable a.Representable := by unfold Representable; infer_instance

theorem Representable.year_bounds {a : Instant} (h : a.Representable) :
    -262143 ≤ a.date.year ∧ a.date.year ≤ 262142 := by
  unfold Representable leastSeconds greatestSeconds at h
  have hfirst : (Date.ofDays (-96465292)).year = -262143 := by decide +kernel
  have hlast : (Date.ofDays 95026236).year = 262142 := by decide +kernel
  have hdays : -96465292 ≤ a.days ∧ a.days ≤ 95026236 := by
    unfold days daySeconds
    omega
  rw [← hfirst, ← hlast]
  exact ⟨Date.year_ofDays_le hdays.1, Date.year_ofDays_le hdays.2⟩

/-- The characters of a stored instant, part by part. -/
theorem toList_stored (a : Instant) :
    a.stored.toList = (yearText a.date.year).toList ++ '-' :: ((padded 2 a.date.month).toList ++
      '-' :: ((padded 2 a.date.day).toList ++ 'T' :: ((padded 2 (a.secondOfDay / 3600)).toList ++
      ':' :: ((padded 2 (a.secondOfDay / 60 % 60)).toList ++
      ':' :: ((padded 2 (a.secondOfDay % 60 + (if a.isLeap then 1 else 0))).toList ++
      '.' :: ((padded 9 a.fraction).toList ++ ['Z'])))))) := by
  simp [stored, dateText, Date.text, clockText]

/-- The parts of an instant of the years 0 to 9999 fit in their widths. -/
theorem parts_lt {a : Instant} (hyear : 0 ≤ a.date.year ∧ a.date.year ≤ 9999) :
    a.date.year.toNat < Nat.pow 10 4 ∧ a.date.month < Nat.pow 10 2 ∧
      a.date.day < Nat.pow 10 2 ∧ a.secondOfDay / 3600 < Nat.pow 10 2 ∧
      a.secondOfDay / 60 % 60 < Nat.pow 10 2 ∧
      a.secondOfDay % 60 + (if a.isLeap then 1 else 0) < Nat.pow 10 2 ∧
      a.fraction < Nat.pow 10 9 := by
  have hdate := Date.ofDays_le a.days
  have hday := a.secondOfDay_lt
  refine ⟨?_, Nat.lt_of_le_of_lt hdate.1 (by decide), Nat.lt_of_le_of_lt hdate.2 (by decide),
    ?_, ?_, ?_, Nat.mod_lt _ (by decide)⟩
  · show a.date.year.toNat < 10000
    omega
  · show a.secondOfDay / 3600 < 100
    omega
  · show a.secondOfDay / 60 % 60 < 100
    omega
  · show a.secondOfDay % 60 + (if a.isLeap then 1 else 0) < 100
    split <;> omega

end Instant

namespace Timestamp

/-- Only years of four digits are read. -/
theorem year_of_strict?_stored {a b : Instant} (h : strict? a.stored = some b) :
    0 ≤ a.date.year ∧ a.date.year ≤ 9999 := by
  by_contra hyear
  have hnone : ∀ cs, number 4 4 ((yearText a.date.year).toList ++ cs) = none := by
    intro cs
    rw [yearText, if_neg hyear]
    split <;> simp [number, takeDigits, digit?]
  rw [strict?, Instant.toList_stored, hnone] at h
  cases h

/-- What is stored is read part by part. -/
theorem strict?_stored {a : Instant} (hyear : 0 ≤ a.date.year ∧ a.date.year ≤ 9999) :
    strict? a.stored = Parts.instant?
      ⟨a.date.year, a.date.month, a.date.day, a.secondOfDay / 3600, a.secondOfDay / 60 % 60,
        a.secondOfDay % 60 + (if a.isLeap then 1 else 0), a.fraction, 0⟩ := by
  have hyear' : (a.date.year.toNat : Int) = a.date.year := Int.toNat_of_nonneg hyear.1
  obtain ⟨hy, hmonth, hd, hhour, hminute, hsecond, hfraction⟩ := Instant.parts_lt hyear
  rw [strict?, Instant.toList_stored, yearText, if_pos hyear]
  -- one part after the other
  simp only [Option.bind_eq_bind, Option.bind_some, number_padded hy, number_padded hmonth,
    number_padded hd, number_padded hhour, number_padded hminute, number_padded hsecond,
    fraction_padded hfraction, char_cons, separator_cons, offset_utc, hyear', List.isEmpty_nil,
    if_true]

/-- The parts that are shown of an instant are those of the instant. -/
theorem instant?_parts {a : Instant} (ha : a.Proper) (hrange : a.Representable) :
    Parts.instant? ⟨a.date.year, a.date.month, a.date.day, a.secondOfDay / 3600,
      a.secondOfDay / 60 % 60, a.secondOfDay % 60 + (if a.isLeap then 1 else 0), a.fraction, 0⟩ =
        some a := by
  have hvalid : Date.Valid ⟨a.date.year, a.date.month, a.date.day⟩ := Date.valid_ofDays a.days
  have hdate : Date.toDays ⟨a.date.year, a.date.month, a.date.day⟩ = a.days :=
    Date.toDays_ofDays a.days
  have hday := a.secondOfDay_lt
  have hclock : ¬ (¬ Date.Valid ⟨a.date.year, a.date.month, a.date.day⟩ ∨
      a.secondOfDay / 3600 > 23 ∨ a.secondOfDay / 60 % 60 > 59 ∨
        a.secondOfDay % 60 + (if a.isLeap then 1 else 0) > 60) := by
    simp only [hvalid, not_true, false_or]
    split <;> omega
  have hyear : ¬ (a.date.year < -262143 ∨ 262142 < a.date.year) := by
    have hbounds := hrange.year_bounds
    omega
  have hoffset : ¬ ((0 : Int) ≤ -daySeconds ∨ daySeconds ≤ 0) := by decide
  have hseconds := a.days_add_secondOfDay
  -- the second that is shown stands for the second of the minute, and for whether it is a leap second
  have hshown : a.secondOfDay / 3600 * 3600 + a.secondOfDay / 60 % 60 * 60 +
        (if a.secondOfDay % 60 + (if a.isLeap then 1 else 0) = 60 then 59
          else a.secondOfDay % 60 + (if a.isLeap then 1 else 0)) = a.secondOfDay ∧
      a.fraction + (if a.secondOfDay % 60 + (if a.isLeap then 1 else 0) = 60 then nanosPerSecond
        else 0) = a.nanos := by
    obtain ⟨hnanos, hleap⟩ := ha
    -- shown as 60 at the end of a minute, or as it is
    by_cases hl : a.isLeap = true
    · have h59 : a.secondOfDay % 60 = 59 := by
        have hminute := hleap hl
        unfold Instant.secondOfDay daySeconds
        omega
      have hlate : nanosPerSecond ≤ a.nanos := of_decide_eq_true hl
      unfold Instant.fraction nanosPerSecond at *
      simp only [hl, if_true, h59]
      omega
    · have hearly : ¬ nanosPerSecond ≤ a.nanos := fun hle => hl (decide_eq_true hle)
      have hminute : ¬ a.secondOfDay % 60 + 0 = 60 := by omega
      unfold Instant.fraction nanosPerSecond at *
      simp only [hl, Bool.false_eq_true, if_false, hminute]
      omega
  unfold Instant.Representable at hrange
  rw [Parts.instant?]
  simp only [hclock, hyear, hoffset, if_false, Instant.ofParts, hdate, Int.sub_zero, hshown.1,
    hshown.2, hseconds, if_pos hrange]

/-- Instants of the years 0 to 9999 can be represented. -/
theorem representable_of_year {a : Instant} (h : 0 ≤ a.date.year ∧ a.date.year ≤ 9999) :
    a.Representable := by
  have hdays : a.date.toDays = a.days := Date.toDays_ofDays a.days
  obtain ⟨hmonth, hday⟩ : a.date.month ≤ 12 ∧ a.date.day ≤ 31 := Date.ofDays_le a.days
  have hseconds := a.days_add_secondOfDay
  have hsecond := a.secondOfDay_lt
  rw [Date.toDays] at hdays
  unfold Instant.Representable Instant.leastSeconds Instant.greatestSeconds
  unfold Date.epochShift at hdays
  unfold daySeconds at hseconds
  -- months before March belong to the year before
  split at hdays <;> omega

/-- A stored instant that can be read is read as itself. -/
theorem eq_of_strict?_stored {a b : Instant} (ha : a.Proper) (h : strict? a.stored = some b) :
    b = a := by
  have hyear := year_of_strict?_stored h
  rw [strict?_stored hyear, instant?_parts ha (representable_of_year hyear)] at h
  exact (Option.some.inj h).symm

end Timestamp
end Courier.Time

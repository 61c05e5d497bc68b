import Courier.Proofs.Time.Order
import Courier.Proofs.Time.Stored
import Mathlib.Data.String.Basic

/-!
Stored timestamps as texts.

A stored text is a sequence of numbers of fixed width, the greater units first.  Texts that begin
with such numbers sort by them first and then by what follows (`digits_append_lt_iff`), so stored
texts sort by their parts, one after the other (`Instant.stored_lt_iff_parts`).  The parts sort as
the instants do: the date as the day (`Date.before_ofDays`), and on one day the time of day.  The
order of the seconds in a minute is kept by leap seconds since they are shown as a second 60
(`Instant.Proper.shown`).

Years of more or fewer digits would break the first step, and so this is about the years 0 to 9999
(`Instant.Storable`).

Main statements: the text that the catalog keeps of an instant of the years 0 to 9999 is read back
as the instant (`Timestamp.strict?_stored_eq`), and of two such texts the one is before the other
just if the instants are (`Instant.stored_lt_iff`).
-/

namespace Courier.Time

/-- Whether a timestamp can be stored: it is that of a second, and its year has four digits. -/
structure Instant.Storable (a : Instant) : Prop where
  proper : a.Proper
  year : 0 ≤ a.date.year ∧ a.date.year ≤ 9999

instance (a : Instant) : Decidable a.Storable :=
  decidable_of_iff (a.Proper ∧ 0 ≤ a.date.year ∧ a.date.year ≤ 9999)
    ⟨fun h => ⟨h.1, h.2⟩, fun h => ⟨h.proper, h.year⟩⟩

/-! ### Reading back -/

namespace Timestamp

/-- A stored instant is read back. -/
theorem strict?_stored_eq {a : Instant} (h : a.Storable) : strict? a.stored = some a := by
  rw [strict?_stored h.year, instant?_parts h.proper (representable_of_year h.year)]

end Timestamp

/-! ### Order of texts -/

/-- Texts that begin with numbers of fixed width sort by them first. -/
theorem digits_append_lt_iff {width m n : Nat} (hm : m < Nat.pow 10 width)
    (hn : n < Nat.pow 10 width) (c d : List Char) :
    digits width m ++ c < digits width n ++ d ↔ m < n ∨ m = n ∧ c < d := by
  induction width generalizing m n c d with
  | zero =>
    obtain rfl : m = 0 := Nat.lt_one_iff.mp hm
    obtain rfl : n = 0 := Nat.lt_one_iff.mp hn
    simp [digits]
  | succ width ih =>
    have hpow : Nat.pow 10 (width + 1) = 10 * Nat.pow 10 width := Nat.mul_comm _ 10
    have hm' : m / 10 < Nat.pow 10 width := Nat.div_lt_of_lt_mul (hpow ▸ hm)
    have hn' : n / 10 < Nat.pow 10 width := Nat.div_lt_of_lt_mul (hpow ▸ hn)
    have hdigit : ∀ i < 10, ∀ j < 10, (Nat.digitChar i < Nat.digitChar j ↔ i < j) ∧
        (Nat.digitChar i = Nat.digitChar j ↔ i = j) := by decide
    obtain ⟨hlt, heq⟩ := hdigit (m % 10) (Nat.mod_lt _ (by decide)) (n % 10)
      (Nat.mod_lt _ (by decide))
    simp only [digits, List.append_assoc, List.singleton_append, ih hm' hn',
      List.cons_lt_cons_iff, hlt, heq]
    -- the last digit of the number counts before what follows it
    by_cases hcd : c < d
    · simp only [hcd, and_true]
      omega
    · simp only [hcd, and_false, or_false]
      omega

/-- A part of fixed width and the sign behind it. -/
theorem padded_append_lt_iff {width m n : Nat} (hm : m < Nat.pow 10 (width + 1))
    (hn : n < Nat.pow 10 (width + 1)) (sign : Char) (c d : List Char) :
    (padded (width + 1) m).toList ++ sign :: c < (padded (width + 1) n).toList ++ sign :: d ↔
      m < n ∨ m = n ∧ c < d := by
  rw [toList_padded hm, toList_padded hn, digits_append_lt_iff hm hn]
  simp

namespace Instant

/-- Stored texts sort by their parts, one after the other. -/
theorem stored_lt_iff_parts {a b : Instant} (ha : a.Storable) (hb : b.Storable) :
    a.stored < b.stored ↔ a.date.year.toNat < b.date.year.toNat ∨
      a.date.year.toNat = b.date.year.toNat ∧ (a.date.month < b.date.month ∨
      a.date.month = b.date.month ∧ (a.date.day < b.date.day ∨ a.date.day = b.date.day ∧
      (a.secondOfDay / 3600 < b.secondOfDay / 3600 ∨
      a.secondOfDay / 3600 = b.secondOfDay / 3600 ∧
      (a.secondOfDay / 60 % 60 < b.secondOfDay / 60 % 60 ∨
      a.secondOfDay / 60 % 60 = b.secondOfDay / 60 % 60 ∧
      (a.secondOfDay % 60 + (if a.isLeap then 1 else 0) <
        b.secondOfDay % 60 + (if b.isLeap then 1 else 0) ∨
      a.secondOfDay % 60 + (if a.isLeap then 1 else 0) =
        b.secondOfDay % 60 + (if b.isLeap then 1 else 0) ∧ a.fraction < b.fraction))))) := by
  obtain ⟨hy, hmonth, hday, hhour, hminute, hsecond, hfraction⟩ := parts_lt ha.year
  obtain ⟨hy', hmonth', hday', hhour', hminute', hsecond', hfraction'⟩ := parts_lt hb.year
  rw [String.lt_iff_toList_lt, toList_stored, toList_stored, yearText, yearText, if_pos ha.year,
    if_pos hb.year, padded_append_lt_iff hy hy', padded_append_lt_iff hmonth hmonth',
    padded_append_lt_iff hday hday', padded_append_lt_iff hhour hhour',
    padded_append_lt_iff hminute hminute', padded_append_lt_iff hsecond hsecond',
    padded_append_lt_iff hfraction hfraction']
  simp

/-- The second that is shown is one more during a leap second, at the end of a minute. -/
theorem Proper.shown {a : Instant} (h : a.Proper) :
    (if a.isLeap then 1 else 0) = a.nanos / nanosPerSecond ∧
      (a.nanos / nanosPerSecond = 0 ∨
        a.nanos / nanosPerSecond = 1 ∧ a.secondOfDay % 60 = 59) := by
  obtain ⟨hnanos, hminute⟩ := h
  have hseconds := a.days_add_secondOfDay
  unfold daySeconds at hseconds
  -- the nanoseconds go beyond a second just during a leap second
  by_cases hleap : a.isLeap = true
  · have hlate : nanosPerSecond ≤ a.nanos := of_decide_eq_true hleap
    have hlast := hminute hleap
    rw [if_pos hleap]
    unfold nanosPerSecond at *
    omega
  · have hearly : ¬ nanosPerSecond ≤ a.nanos := fun hle => hleap (decide_eq_true hle)
    rw [if_neg hleap]
    unfold nanosPerSecond at *
    omega

/-- Stored texts sort as their instants. -/
theorem stored_lt_iff {a b : Instant} (ha : a.Storable) (hb : b.Storable) :
    a.stored < b.stored ↔ a < b := by
  rw [stored_lt_iff_parts ha hb, lt_iff]
  have hzero := ha.year.1
  have hzero' := hb.year.1
  have hseconds := a.days_add_secondOfDay
  have hseconds' := b.days_add_secondOfDay
  have hlt := a.secondOfDay_lt
  have hlt' := b.secondOfDay_lt
  unfold daySeconds at hseconds hseconds'
  rcases Int.lt_trichotomy a.days b.days with hdays | hdays | hdays
  · -- an earlier day has an earlier date
    have hbefore : a.date.Before b.date := Date.before_ofDays hdays
    unfold Date.Before at hbefore
    constructor
    · intro _
      omega
    · intro _
      omega
  · -- on one day the time of day decides
    have hdate : a.date = b.date := congrArg Date.ofDays hdays
    obtain ⟨hshown, hleap⟩ := ha.proper.shown
    obtain ⟨hshown', hleap'⟩ := hb.proper.shown
    simp only [hdate, Nat.lt_irrefl, false_or, true_and, hshown, hshown']
    unfold fraction nanosPerSecond at *
    constructor
    · intro _
      omega
    · intro _
      omega
  · have hbefore : b.date.Before a.date := Date.before_ofDays hdays
    unfold Date.Before at hbefore
    constructor
    · intro _
      omega
    · intro _
      omega

end Instant
end Courier.Time

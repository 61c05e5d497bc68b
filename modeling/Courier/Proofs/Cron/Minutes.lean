import Courier.Proofs.Cron.Fields
import Courier.Proofs.Cron.Occurrence
import Courier.Proofs.Time.Stored
import Mathlib.Order.Bounds.Basic

/-!
Schedules of five fields.

An expression of five words that are a field each is the schedule at second 0 of the minutes that
belong to the five fields (`Schedule.eq_of_words`): the words are counted before they are read, so
the expression gets a seconds field in front, and what the reader makes of the six fields is known.
What a field denotes is a relation of its own (`IsField`), and the numbers of a schedule are those of
its fields.

That the search finds the least later occurrence, or none if there is none, is what `IsNext` says.
Occurrences asked for one after the other are then the first ones that are later, in order
(`Schedule.enumerates_occurrences`), by induction on how many are asked for.

The search counts years from 0 and begins one second after the instant, so the instant must be
`Schedule.Searchable`: the first second that is looked at lies in the year 0 or later, and it can be
represented.  Every reading of a clock is of this kind.  Only the main statement needs it, and it is
needed: after an instant before the year 0 nothing is found (`Schedule.next_eq_none_of_year`,
`Schedule.not_minutes_of_earlier`).

Main statement: after an instant of this kind, the minutes of such an expression are found one after
the other (`Schedule.minutes_of_words`).
-/

namespace Courier.Cron

open Time

/-! ### Occurrences one after the other -/

/-- Whether a list holds the first instants with a property, at most so many, in ascending order. -/
structure Enumerates (P : Instant → Prop) (count : Nat) (bs : List Instant) : Prop where
  ascending : bs.Pairwise (· < ·)
  sound : ∀ b ∈ bs, P b
  bounded : bs.length ≤ count
  complete : ∀ o, P o → o ∈ bs ∨ bs.length = count ∧ ∀ b ∈ bs, b < o

namespace Schedule

variable {s : Schedule} {a : Instant}

theorem IsNext.isLeast_iff {next : Option Instant} (h : s.IsNext a next) {b : Instant} :
    next = some b ↔ IsLeast {o | s.Occurs o ∧ a < o} b := by
  constructor
  · intro hb
    refine ⟨h.occurs b hb, fun o ho => ?_⟩
    obtain ⟨b', hb', hle⟩ := h.least o ho.1 ho.2
    obtain rfl := Option.some.inj (hb.symm.trans hb')
    exact hle
  · intro hb
    obtain ⟨b', hb', hle⟩ := h.least b hb.1.1 hb.1.2
    have hle' : b ≤ b' := hb.2 (h.occurs b' hb')
    rw [hb', le_antisymm hle hle']

theorem IsNext.eq_none_iff {next : Option Instant} (h : s.IsNext a next) :
    next = none ↔ ∀ o, s.Occurs o → ¬a < o := by
  constructor
  · intro hnone o ho hlt
    obtain ⟨b, hb, -⟩ := h.least o ho hlt
    rw [hnone] at hb
    cases hb
  · intro hnone
    refine Option.eq_none_iff_forall_ne_some.mpr fun b hb => ?_
    obtain ⟨hoccurs, hlt⟩ := h.occurs b hb
    exact hnone b hoccurs hlt

/-- Occurrences asked for one after the other are the first ones that are later, none skipped and
none repeated. -/
theorem enumerates_occurrences (hs : s.Proper) (ha : a.Regular)
    (hyear : 0 ≤ (a.plus nanosPerSecond).date.year) (count : Nat) :
    Enumerates (fun o => s.Occurs o ∧ a < o) count (s.occurrences a count) := by
  -- by induction on the count, from the occurrence that has been found on
  induction count generalizing a with
  | zero =>
    have hnone {P : Instant → Prop} : ∀ b ∈ s.occurrences a 0, P b := by
      rintro b ⟨⟩
    exact ⟨.nil, hnone, Nat.le_refl 0, fun _ _ => .inr ⟨rfl, hnone⟩⟩
  | succ count ih =>
    have hnext := isNext_next hs ha hyear
    cases hb : s.next a with
    | none =>
      have hnone := hnext.eq_none_iff.mp hb
      rw [occurrences_of_none hb]
      exact ⟨.nil, by simp, Nat.zero_le _, fun o ho => absurd ho.2 (hnone o ho.1)⟩
    | some b =>
      obtain ⟨⟨hoccurs, hlt⟩, hleast⟩ := hnext.isLeast_iff.mp hb
      have hregular : b.Regular := by
        unfold Instant.Regular
        rw [hoccurs.whole]
        decide
      have hlater := Int.le_trans hyear (ha.year_le hregular (le_of_lt hlt))
      obtain ⟨hascending, hsound, hbounded, hcomplete⟩ := ih hregular hlater
      rw [occurrences_of_some hb]
      refine ⟨List.pairwise_cons.mpr ⟨fun c hc => (hsound c hc).2, hascending⟩, ?_,
        Nat.succ_le_succ hbounded, fun o ho => ?_⟩
      · intro c hc
        rcases List.mem_cons.mp hc with rfl | hc
        · exact ⟨hoccurs, hlt⟩
        · exact ⟨(hsound c hc).1, lt_trans hlt (hsound c hc).2⟩
      · -- an occurrence is the first one, or it is among those behind it
        rcases lt_or_eq_of_le (hleast ho) with hbo | rfl
        · rcases hcomplete o ⟨ho.1, hbo⟩ with hmem | ⟨hlength, hall⟩
          · exact .inl (List.mem_cons_of_mem b hmem)
          · refine .inr ⟨congrArg (· + 1) hlength, fun c hc => ?_⟩
            rcases List.mem_cons.mp hc with rfl | hc
            · exact hbo
            · exact hall c hc
        · exact .inl List.mem_cons_self

end Schedule

/-! ### Minutes -/

/-- Whether an instant is the first second of a minute, in the years from 1970 to 2100, whose parts
belong to the numbers of five fields. -/
structure Strikes (numbers : Unit → List Nat) (b : Instant) : Prop where
  whole : b.nanos = 0
  second : b.secondOfDay % 60 = 0
  minute : b.secondOfDay / 60 % 60 ∈ numbers .minute
  hour : b.secondOfDay / 3600 ∈ numbers .hour
  dayOfMonth : b.date.day ∈ numbers .dayOfMonth
  month : b.date.month ∈ numbers .month
  dayOfWeek : weekday b.days ∈ numbers .dayOfWeek
  year : 1970 ≤ b.date.year ∧ b.date.year ≤ 2100

namespace Schedule

variable {numbers : Unit → List Nat}

/-- The schedule at second 0 of the minutes of five fields. -/
def onMinutes (numbers : Unit → List Nat) : Schedule :=
  ⟨[0], numbers .minute, numbers .hour, numbers .dayOfMonth, numbers .month, numbers .dayOfWeek,
    Unit.year.range⟩

theorem occurs_onMinutes_iff {b : Instant} : (onMinutes numbers).Occurs b ↔ Strikes numbers b := by
  constructor
  · rintro ⟨hwhole, ⟨y, hy, hyear⟩, hmonth, hday, hweek, hhour, hminute, hsecond⟩
    obtain ⟨hfirst, hlast⟩ := mem_range_iff.mp hy
    refine ⟨hwhole, List.mem_singleton.mp hsecond, hminute, hhour, hday, hmonth, hweek, ?_⟩
    simp only [Unit.least, Unit.greatest] at hfirst hlast
    omega
  · rintro ⟨hwhole, hsecond, hminute, hhour, hday, hmonth, hweek, hyear⟩
    refine ⟨hwhole, ⟨b.date.year.toNat, mem_range_iff.mpr ?_, by omega⟩, hmonth, hday, hweek, hhour,
      hminute, List.mem_singleton.mpr hsecond⟩
    simp only [Unit.least, Unit.greatest]
    omega

/-- An expression of five words, each by itself a field, is the schedule of their minutes. -/
theorem eq_of_words {expr : String} {s : Schedule}
    (hwords : List.Forall₂ (fun u w => IsField numbers u w.toList) Unit.five (Text.words expr))
    (hparse : parse expr = .ok s) : s = onMinutes numbers := by
  have hfive : (Text.words expr).length = 5 := hwords.length_eq.symm
  have hfields := forall₂_words.mp hwords
  obtain ⟨c, cs, htrim, hbegins⟩ := exists_of_words hfields
  have hread := (parse_eq_ok_iff htrim hbegins).mp hparse
  rw [widened, if_pos hfive] at hread
  obtain ⟨seconds, minutes, hours, daysOfMonth, months, daysOfWeek, years⟩ := s
  rcases ofFields?_eq_some_iff.mp hread with ⟨hsix, rfl⟩ | hseven
  · obtain ⟨nss, hnss, heq⟩ := (fields_zero htrim hbegins).mp hsix
    obtain ⟨rfl, -⟩ := numbers_of_words hfields hnss
    cases heq
    rfl
  · -- behind the five words there is no field for the years
    have hsplit : Unit.seven = .second :: (Unit.five ++ [.year]) := rfl
    rw [hsplit] at hseven
    obtain ⟨nss, hnss, heq⟩ := (fields_zero htrim hbegins).mp hseven
    obtain ⟨mss, mss', cs', hmss, hyears, -⟩ := fields_append_iff.mp hnss
    obtain ⟨-, hend⟩ := numbers_of_words hfields hmss
    obtain ⟨_, _, _, hns, -⟩ := fields_cons_iff.mp hyears
    rw [field_of_no_words hend] at hns
    cases hns

/-- Whether the search for the next occurrence after an instant begins within the calendar: in the
year 0 or later, and at a second that can be represented. -/
structure Searchable (a : Instant) : Prop where
  year : 0 ≤ (a.plus nanosPerSecond).date.year
  representable : (a.plus nanosPerSecond).Representable

instance (a : Instant) : Decidable (Searchable a) :=
  decidable_of_iff
    (0 ≤ (a.plus nanosPerSecond).date.year ∧ (a.plus nanosPerSecond).Representable)
    ⟨fun h => ⟨h.1, h.2⟩, fun h => ⟨h.1, h.2⟩⟩

/-- An expression of five words that are a field each occurs on just the minutes of its fields: the
next occurrence after an instant is the least of these minutes that is later, there is none just if
none of them is later, and asking for one after the other gives them all in order. -/
theorem minutes_of_words {expr : String} {s : Schedule}
    (hwords : List.Forall₂ (fun u w => IsField numbers u w.toList) Unit.five (Text.words expr))
    (hparse : parse expr = .ok s) {a : Instant} (ha : a.Regular) (hsearch : Searchable a) :
    (∀ b, s.next a = some b ↔ IsLeast {o | Strikes numbers o ∧ a < o} b) ∧
      (s.next a = none ↔ ∀ o, Strikes numbers o → ¬a < o) ∧
      ∀ count, Enumerates (fun o => Strikes numbers o ∧ a < o) count (s.occurrences a count) := by
  have hproper := proper_of_parse hparse
  obtain rfl := eq_of_words hwords hparse
  have hnext := isNext_next hproper ha hsearch.year
  have henum := enumerates_occurrences hproper ha hsearch.year
  simp only [occurs_onMinutes_iff] at henum
  refine ⟨fun b => ?_, ?_, henum⟩
  · rw [hnext.isLeast_iff]
    simp only [occurs_onMinutes_iff]
  · rw [hnext.eq_none_iff]
    simp only [occurs_onMinutes_iff]

/-- Nine o'clock on leap days, asked for in the last minute of 2027. -/
theorem minutes_of_leap_days :
    let numbers : Unit → List Nat := fun u =>
      if u = .minute then [0] else if u = .hour then [9] else if u = .dayOfMonth then [29]
      else if u = .month then [2] else u.range
    let s := onMinutes numbers
    parse "0 9 29 feb *" = .ok s ∧
      s.next ⟨1830297570, 500000000⟩ = some ⟨1835427600, 0⟩ ∧
      IsLeast {o | Strikes numbers o ∧ ⟨1830297570, 500000000⟩ < o} ⟨1835427600, 0⟩ := by
  intro numbers s
  have hparse : parse "0 9 29 feb *" = .ok s := by decide +kernel
  have hwords : List.Forall₂ (fun u w => IsField numbers u w.toList) Unit.five
      (Text.words "0 9 29 feb *") := by
    decide +kernel
  have hnext : s.next ⟨1830297570, 500000000⟩ = some ⟨1835427600, 0⟩ := by decide +kernel
  obtain ⟨hleast, -⟩ := minutes_of_words hwords hparse
    (a := ⟨1830297570, 500000000⟩) (by decide) (by decide +kernel)
  exact ⟨hparse, hnext, (hleast _).mp hnext⟩

/-- The search counts years from 0, so none is found after an instant before them. -/
theorem next_eq_none_of_year {s : Schedule} {a : Instant}
    (h : (a.plus nanosPerSecond).date.year < 0) : s.next a = none := by
  refine Option.eq_none_iff_forall_ne_some.mpr fun b hb => ?_
  exact Int.not_le.mpr h (le_year_of_next hb)

/-- At the beginning of the year -1 there is no next first of January, although that of 1970 is
later. -/
theorem not_minutes_of_earlier :
    let numbers : Unit → List Nat := fun u =>
      if u = .minute then [0] else if u = .hour then [0] else if u = .dayOfMonth then [1]
      else if u = .month then [1] else u.range
    let s := onMinutes numbers
    let a : Instant := ⟨-62198755200, 0⟩
    parse "0 0 1 1 *" = .ok s ∧
      List.Forall₂ (fun u w => IsField numbers u w.toList) Unit.five (Text.words "0 0 1 1 *") ∧
      a.Regular ∧ s.next a = none ∧ Strikes numbers ⟨0, 0⟩ ∧ a < ⟨0, 0⟩ ∧
      ¬(s.next a = none ↔ ∀ o, Strikes numbers o → ¬a < o) := by
  -- five words, each of them a number or a star
  intro numbers s a
  have hwords : List.Forall₂ (fun u w => IsField numbers u w.toList) Unit.five
      (Text.words "0 0 1 1 *") := by
    decide +kernel
  have hnone : s.next a = none := next_eq_none_of_year (by decide +kernel)
  have hstrikes : Strikes numbers ⟨0, 0⟩ :=
    ⟨rfl, by decide, by decide, by decide, by decide, by decide, by decide, by decide⟩
  have hlater : a < ⟨0, 0⟩ := by decide
  exact ⟨by decide +kernel, hwords, by decide, hnone, hstrikes, hlater,
    fun h => h.mp hnone _ hstrikes hlater⟩

end Schedule

end Courier.Cron

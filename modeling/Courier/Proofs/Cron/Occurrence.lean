import Courier.Proofs.Cron.Next
import Courier.Proofs.Keyed
import Mathlib.Data.Option.Basic

/-!
The occurrences of a schedule.

A schedule occurs at the whole seconds whose parts all belong to its fields (`Schedule.Occurs`).
The fields of a schedule that has been read are proper: ascending, and within the range of their
unit (`Schedule.proper_of_parse`).  The search relies on both: it takes the first number of a field
that is late enough, and passes over hours and minutes that end before it begins.

For proper schedules every search upwards finds the least of what it looks for, through the seconds
of a minute (`second_spec`), the minutes of an hour (`minute_spec`), the times of a day
(`timeFrom?_spec`) and the days (`dayFrom?_spec`); each is proved from the one before, by what the
first success in an ascending list is (`least_of_findSome?`).  Days are searched one by one, with as
many as there are up to the last one, so the search finds nothing only if there is nothing left.

An occurrence on the day of the instant comes before all on later days (`today_le`), and if there is
none the search goes on with the next day (`nextDay_spec`).  Years are counted from 0, and an
instant before them is outside of what is proved.

Main statement: the next occurrence after an instant is the least of all occurrences that are later,
and there is none only if no occurrence is later (`Schedule.isNext_next`).
-/

namespace Courier

open Time

/-- Whether the nanoseconds of an instant are those of a second or of a leap second. -/
def Time.Instant.Regular (a : Instant) : Prop := a.nanos < 2 * nanosPerSecond

instance (a : Instant) : Decidable a.Regular := by unfold Instant.Regular; infer_instance

/-- A second later it is the next whole second, also from within a leap second. -/
theorem Time.Instant.Regular.seconds_plus_second {a : Instant} (h : a.Regular) :
    (a.plus nanosPerSecond).seconds = a.seconds + 1 := by
  have hsecs : nanosPerSecond / nanosPerSecond = 1 := by decide
  have hmod : nanosPerSecond % nanosPerSecond = 0 := by decide
  have hleap : ¬ (a.isLeap = true ∧ (1 : Nat) = 0 ∧ a.nanos + 0 < 2 * nanosPerSecond) := by simp
  rw [Instant.plus, hsecs, hmod, if_neg hleap]
  unfold Instant.Regular at h
  have hcarry : ((if a.isLeap = true then a.nanos - nanosPerSecond else a.nanos) + 0) /
      nanosPerSecond = 0 := by
    refine Nat.div_eq_of_lt ?_
    by_cases hleap : nanosPerSecond ≤ a.nanos
    · rw [Instant.isLeap, if_pos (decide_eq_true hleap)]
      omega
    · rw [Instant.isLeap, if_neg (by simpa using hleap)]
      omega
  simp only [hcarry]
  exact Int.add_zero _

/-- A second later the year is not earlier than a second after an earlier instant. -/
theorem Time.Instant.Regular.year_le {a b : Instant} (ha : a.Regular) (hb : b.Regular)
    (h : a ≤ b) : (a.plus nanosPerSecond).date.year ≤ (b.plus nanosPerSecond).date.year := by
  refine Date.year_ofDays_le ?_
  have hseconds : a.seconds ≤ b.seconds := by
    rw [Instant.le_iff] at h
    omega
  unfold Instant.days daySeconds
  rw [ha.seconds_plus_second, hb.seconds_plus_second]
  omega

namespace Cron

/-! ### Fields -/

theorem range_eq_range' (u : Unit) : u.range = List.range' u.least (u.greatest + 1 - u.least) := rfl

theorem mem_range_iff {u : Unit} {n : Nat} : n ∈ u.range ↔ u.least ≤ n ∧ n ≤ u.greatest := by
  have hle : u.least ≤ u.greatest := by cases u <;> decide
  rw [range_eq_range', List.mem_range'_1]
  omega

theorem pairwise_range (u : Unit) : u.range.Pairwise (· < ·) := List.pairwise_lt_range'

/-- A field that has been read is a part of the range of its unit. -/
theorem sublist_of_field {u : Unit} {cs rest : List Char} {ns : List Nat}
    (h : field u cs = some (ns, rest)) : ns.Sublist u.range := by
  unfold field at h
  obtain ⟨is, -, h⟩ := Option.bind_eq_some_iff.mp h
  obtain ⟨ns', hns, h⟩ := Option.bind_eq_some_iff.mp h
  obtain ⟨rfl, -⟩ := Prod.mk.inj (Option.some.inj h)
  unfold ordinals? at hns
  obtain ⟨steps, -, hns⟩ := Option.bind_eq_some_iff.mp hns
  obtain rfl := Option.some.inj hns
  exact List.filter_sublist

namespace Schedule

/-- Whether every field is an ascending part of the range of its unit. -/
structure Proper (s : Schedule) : Prop where
  seconds : s.seconds.Sublist Unit.second.range
  minutes : s.minutes.Sublist Unit.minute.range
  hours : s.hours.Sublist Unit.hour.range
  daysOfMonth : s.daysOfMonth.Sublist Unit.dayOfMonth.range
  months : s.months.Sublist Unit.month.range
  daysOfWeek : s.daysOfWeek.Sublist Unit.dayOfWeek.range
  years : s.years.Sublist Unit.year.range

theorem proper_of_ofFields? {cs : List Char} {s : Schedule} (h : ofFields? cs = some s) :
    s.Proper := by
  unfold ofFields? at h
  obtain ⟨⟨seconds, cs₁⟩, hseconds, h⟩ := Option.bind_eq_some_iff.mp h
  obtain ⟨⟨minutes, cs₂⟩, hminutes, h⟩ := Option.bind_eq_some_iff.mp h
  obtain ⟨⟨hours, cs₃⟩, hhours, h⟩ := Option.bind_eq_some_iff.mp h
  obtain ⟨⟨daysOfMonth, cs₄⟩, hdaysOfMonth, h⟩ := Option.bind_eq_some_iff.mp h
  obtain ⟨⟨months, cs₅⟩, hmonths, h⟩ := Option.bind_eq_some_iff.mp h
  obtain ⟨⟨daysOfWeek, cs₆⟩, hdaysOfWeek, h⟩ := Option.bind_eq_some_iff.mp h
  -- the years may be left out, and then are all years
  have hyears : ((field .year cs₆).getD (Unit.year.range, cs₆)).1.Sublist Unit.year.range := by
    rcases hyear : field .year cs₆ with - | ⟨years, rest⟩
    · exact List.Sublist.refl _
    · exact sublist_of_field hyear
  dsimp only at h
  split at h
  · obtain rfl := Option.some.inj h
    exact ⟨sublist_of_field hseconds, sublist_of_field hminutes, sublist_of_field hhours,
      sublist_of_field hdaysOfMonth, sublist_of_field hmonths, sublist_of_field hdaysOfWeek,
      hyears⟩
  · cases h

theorem proper_atStartOf {hours daysOfMonth months daysOfWeek : List Nat}
    (hhours : hours.Sublist Unit.hour.range) (hdays : daysOfMonth.Sublist Unit.dayOfMonth.range)
    (hmonths : months.Sublist Unit.month.range)
    (hweek : daysOfWeek.Sublist Unit.dayOfWeek.range) :
    (atStartOf hours daysOfMonth months daysOfWeek).Proper :=
  have hsecond : [0].Sublist Unit.second.range := by decide
  have hminute : [0].Sublist Unit.minute.range := by decide
  ⟨hsecond, hminute, hhours, hdays, hmonths, hweek, List.Sublist.refl _⟩

theorem proper_of_mem_shorthands {name : String} {s : Schedule} (h : (name, s) ∈ shorthands) :
    s.Proper := by
  simp only [shorthands, List.mem_cons, Prod.mk.injEq, List.not_mem_nil, or_false] at h
  rcases h with ⟨-, rfl⟩ | ⟨-, rfl⟩ | ⟨-, rfl⟩ | ⟨-, rfl⟩ | ⟨-, rfl⟩ <;>
    exact proper_atStartOf (by decide) (by decide) (by decide) (by decide)

theorem proper_of_ofText? {text : String} {s : Schedule} (h : ofText? text = some s) :
    s.Proper := by
  rcases (Option.orElse_eq_some _ _ _).mp h with hname | ⟨-, hfields⟩
  · exact proper_of_mem_shorthands (mem_of_lookup hname)
  · exact proper_of_ofFields? hfields

/-- A schedule that has been read is proper. -/
theorem proper_of_parse {expr : String} {s : Schedule} (h : parse expr = .ok s) : s.Proper := by
  unfold parse at h
  dsimp only at h
  split at h
  · cases h
  · split at h
    · rename_i hread
      exact proper_of_ofText? (Except.ok.inj h ▸ hread)
    · cases h

/-! ### Occurrences -/

/-- Whether a second of a day is one of the schedule's. -/
structure AtTime (s : Schedule) (time : Nat) : Prop where
  hour : time / 3600 ∈ s.hours
  minute : time / 60 % 60 ∈ s.minutes
  second : time % 60 ∈ s.seconds

/-- Whether a schedule occurs at an instant: at a whole second whose parts belong to the fields. -/
structure Occurs (s : Schedule) (a : Instant) : Prop where
  whole : a.nanos = 0
  year : ∃ y ∈ s.years, (y : Int) = a.date.year
  month : a.date.month ∈ s.months
  dayOfMonth : a.date.day ∈ s.daysOfMonth
  dayOfWeek : weekday a.days ∈ s.daysOfWeek
  time : s.AtTime a.secondOfDay

theorem onDay_iff {s : Schedule} {day : Int} : s.onDay day = true ↔
    (∃ y ∈ s.years, (y : Int) = (Date.ofDays day).year) ∧ (Date.ofDays day).month ∈ s.months ∧
      (Date.ofDays day).day ∈ s.daysOfMonth ∧ weekday day ∈ s.daysOfWeek := by
  simp [onDay, and_assoc]

theorem occurs_iff {s : Schedule} {a : Instant} :
    s.Occurs a ↔ a.nanos = 0 ∧ s.onDay a.days = true ∧ s.AtTime a.secondOfDay := by
  rw [onDay_iff]
  constructor
  · intro h
    exact ⟨h.whole, ⟨h.year, h.month, h.dayOfMonth, h.dayOfWeek⟩, h.time⟩
  · rintro ⟨hwhole, ⟨hyear, hmonth, hday, hweek⟩, htime⟩
    exact ⟨hwhole, hyear, hmonth, hday, hweek, htime⟩

/-- Whether a result is the first occurrence after an instant: an occurrence that is later, and none
is between them; or there is no later occurrence at all. -/
structure IsNext (s : Schedule) (a : Instant) (next : Option Instant) : Prop where
  occurs : ∀ b, next = some b → s.Occurs b ∧ a < b
  least : ∀ o, s.Occurs o → a < o → ∃ b, next = some b ∧ b ≤ o

/-! ### Searching through the times of a day -/

/-- In an ascending list, the search stops at the least number with a result. -/
theorem least_of_findSome? {ns : List Nat} (hns : ns.Pairwise (· < ·)) {f : Nat → Option Nat}
    {b : Nat} (h : ns.findSome? f = some b) :
    ∃ n ∈ ns, f n = some b ∧ ∀ m ∈ ns, m < n → f m = none := by
  obtain ⟨before, n, after, rfl, hn, hbefore⟩ := List.findSome?_eq_some_iff.mp h
  refine ⟨n, List.mem_append_right _ List.mem_cons_self, hn, fun m hm hlt => ?_⟩
  rcases List.mem_append.mp hm with hm | hm
  · exact hbefore m hm
  · -- what stands behind it is not less
    have hpairwise := (List.pairwise_append.mp hns).2.1
    rcases List.mem_cons.mp hm with rfl | hm
    · exact absurd hlt (Nat.lt_irrefl _)
    · exact absurd hlt (Nat.lt_asymm ((List.pairwise_cons.mp hpairwise).1 m hm))

theorem least_of_find? {ns : List Nat} (hns : ns.Pairwise (· < ·)) {p : Nat → Bool} {n : Nat}
    (h : ns.find? p = some n) : n ∈ ns ∧ p n = true ∧ ∀ m ∈ ns, p m = true → n ≤ m := by
  obtain ⟨hn, before, after, rfl, hbefore⟩ := List.find?_eq_some_iff_append.mp h
  refine ⟨List.mem_append_right _ List.mem_cons_self, hn, fun m hm hp => ?_⟩
  rcases List.mem_append.mp hm with hm | hm
  · have hnot := hbefore m hm
    simp [hp] at hnot
  · have hpairwise := (List.pairwise_append.mp hns).2.1
    rcases List.mem_cons.mp hm with rfl | hm
    · exact Nat.le_refl _
    · exact Nat.le_of_lt ((List.pairwise_cons.mp hpairwise).1 m hm)

variable {s : Schedule}

theorem Proper.lt_of_mem_hours (hs : s.Proper) {n : Nat} (h : n ∈ s.hours) : n < 24 := by
  have hrange := mem_range_iff.mp (hs.hours.subset h)
  simp only [Unit.greatest] at hrange
  omega

theorem Proper.lt_of_mem_minutes (hs : s.Proper) {n : Nat} (h : n ∈ s.minutes) : n < 60 := by
  have hrange := mem_range_iff.mp (hs.minutes.subset h)
  simp only [Unit.greatest] at hrange
  omega

theorem Proper.lt_of_mem_seconds (hs : s.Proper) {n : Nat} (h : n ∈ s.seconds) : n < 60 := by
  have hrange := mem_range_iff.mp (hs.seconds.subset h)
  simp only [Unit.greatest] at hrange
  omega

/-- The times of a schedule are those with an hour, a minute and a second of its own. -/
theorem Proper.atTime_iff (hs : s.Proper) {time : Nat} :
    s.AtTime time ↔ ∃ h ∈ s.hours, ∃ m ∈ s.minutes, ∃ sec ∈ s.seconds,
      time = h * 3600 + m * 60 + sec := by
  constructor
  · intro h
    exact ⟨_, h.hour, _, h.minute, _, h.second, by omega⟩
  · rintro ⟨h, hh, m, hm, sec, hsec, rfl⟩
    have hm60 := hs.lt_of_mem_minutes hm
    have hsec60 := hs.lt_of_mem_seconds hsec
    have hhour : (h * 3600 + m * 60 + sec) / 3600 = h := by omega
    have hminute : (h * 3600 + m * 60 + sec) / 60 % 60 = m := by omega
    have hsecond : (h * 3600 + m * 60 + sec) % 60 = sec := by omega
    exact ⟨by rwa [hhour], by rwa [hminute], by rwa [hsecond]⟩

/-- The search through a minute finds the least of its times. -/
theorem second_spec (hs : s.Proper) (start base : Nat) :
    (∀ t, ((s.seconds.find? fun sec => start ≤ base + sec).map fun sec => base + sec) = some t →
      start ≤ t ∧ (∃ sec ∈ s.seconds, t = base + sec) ∧
        ∀ sec ∈ s.seconds, start ≤ base + sec → t ≤ base + sec) ∧
      (((s.seconds.find? fun sec => start ≤ base + sec).map fun sec => base + sec) = none →
        ∀ sec ∈ s.seconds, base + sec < start) := by
  have hsorted := (pairwise_range .second).sublist hs.seconds
  constructor
  · intro t h
    obtain ⟨sec, hfind, rfl⟩ := Option.map_eq_some_iff.mp h
    obtain ⟨hmem, hle, hleast⟩ := least_of_find? hsorted hfind
    refine ⟨of_decide_eq_true hle, ⟨sec, hmem, rfl⟩, fun sec' hsec' hle' => ?_⟩
    exact Nat.add_le_add_left (hleast sec' hsec' (decide_eq_true hle')) base
  · intro h sec hsec
    have hnot := List.find?_eq_none.mp (Option.map_eq_none_iff.mp h) sec hsec
    simpa using hnot

/-- The search through an hour finds the least of its times. -/
theorem minute_spec (hs : s.Proper) (start base : Nat) :
    let found := (s.minutes.filter fun m => start < base + (m + 1) * 60).findSome? fun m =>
      (s.seconds.find? fun sec => start ≤ base + m * 60 + sec).map fun sec => base + m * 60 + sec
    (∀ t, found = some t → start ≤ t ∧
      (∃ m ∈ s.minutes, ∃ sec ∈ s.seconds, t = base + m * 60 + sec) ∧
        ∀ m ∈ s.minutes, ∀ sec ∈ s.seconds, start ≤ base + m * 60 + sec →
          t ≤ base + m * 60 + sec) ∧
      (found = none → ∀ m ∈ s.minutes, ∀ sec ∈ s.seconds, base + m * 60 + sec < start) := by
  intro found
  have hsorted := ((pairwise_range .minute).sublist hs.minutes).filter
    fun m => start < base + (m + 1) * 60
  -- a minute that is passed over has no time that is late enough
  have hkept : ∀ m ∈ s.minutes, ∀ sec ∈ s.seconds, start ≤ base + m * 60 + sec →
      m ∈ s.minutes.filter fun m => start < base + (m + 1) * 60 := by
    intro m hm sec hsec hle
    have hsec60 := hs.lt_of_mem_seconds hsec
    exact List.mem_filter.mpr ⟨hm, decide_eq_true (by omega)⟩
  constructor
  · intro t h
    obtain ⟨m, hm, hfound, hleast⟩ := least_of_findSome? hsorted h
    obtain ⟨hle, ⟨sec, hsec, rfl⟩, hmin⟩ := (second_spec hs start (base + m * 60)).1 t hfound
    refine ⟨hle, ⟨m, (List.mem_filter.mp hm).1, sec, hsec, rfl⟩, ?_⟩
    intro m' hm' sec' hsec' hle'
    have hsec60 := hs.lt_of_mem_seconds hsec
    -- an earlier minute was passed over for want of a second that is late enough; a later one has
    -- only later times
    rcases Nat.lt_trichotomy m' m with hlt | rfl | hgt
    · have hnone := hleast m' (hkept m' hm' sec' hsec' hle') hlt
      have hlate := (second_spec hs start (base + m' * 60)).2 hnone sec' hsec'
      omega
    · exact hmin sec' hsec' hle'
    · omega
  · intro h m hm sec hsec
    by_contra hnot
    have hkept := hkept m hm sec hsec (Nat.not_lt.mp hnot)
    exact hnot ((second_spec hs start (base + m * 60)).2
      (List.findSome?_eq_none_iff.mp h m hkept) sec hsec)

/-- The search through a day finds the least of its times. -/
theorem timeFrom?_spec (hs : s.Proper) (start : Nat) :
    (∀ t, s.timeFrom? start = some t →
      s.AtTime t ∧ start ≤ t ∧ ∀ u, s.AtTime u → start ≤ u → t ≤ u) ∧
      (s.timeFrom? start = none → ∀ u, s.AtTime u → u < start) := by
  have hsorted := ((pairwise_range .hour).sublist hs.hours).filter fun h => start < (h + 1) * 3600
  -- an hour that is passed over has no time that is late enough
  have hkept : ∀ h ∈ s.hours, ∀ m ∈ s.minutes, ∀ sec ∈ s.seconds,
      start ≤ h * 3600 + m * 60 + sec → h ∈ s.hours.filter fun h => start < (h + 1) * 3600 := by
    intro h hh m hm sec hsec hle
    have hm60 := hs.lt_of_mem_minutes hm
    have hsec60 := hs.lt_of_mem_seconds hsec
    exact List.mem_filter.mpr ⟨hh, decide_eq_true (by omega)⟩
  constructor
  · intro t ht
    obtain ⟨h, hh, hfound, hleast⟩ := least_of_findSome? hsorted ht
    obtain ⟨hle, ⟨m, hm, sec, hsec, rfl⟩, hmin⟩ := (minute_spec hs start (h * 3600)).1 t hfound
    refine ⟨hs.atTime_iff.mpr ⟨h, (List.mem_filter.mp hh).1, m, hm, sec, hsec, rfl⟩, hle, ?_⟩
    intro u hu hle'
    obtain ⟨h', hh', m', hm', sec', hsec', rfl⟩ := hs.atTime_iff.mp hu
    have hm60 := hs.lt_of_mem_minutes hm
    have hsec60 := hs.lt_of_mem_seconds hsec
    -- an earlier hour, the same hour, or a later one
    rcases Nat.lt_trichotomy h' h with hlt | rfl | hgt
    · have hnone := hleast h' (hkept h' hh' m' hm' sec' hsec' hle') hlt
      have hlate := (minute_spec hs start (h' * 3600)).2 hnone m' hm' sec' hsec'
      omega
    · exact hmin m' hm' sec' hsec' hle'
    · omega
  · intro hnone u hu
    obtain ⟨h, hh, m, hm, sec, hsec, rfl⟩ := hs.atTime_iff.mp hu
    by_contra hnot
    have hkept := hkept h hh m hm sec hsec (Nat.not_lt.mp hnot)
    exact hnot ((minute_spec hs start (h * 3600)).2
      (List.findSome?_eq_none_iff.mp hnone h hkept) m hm sec hsec)

/-! ### Searching through the days -/

theorem dayFrom?_spec (count : Nat) :
    ∀ day : Int, (∀ d, s.dayFrom? day count = some d →
      s.onDay d = true ∧ day ≤ d ∧ ∀ e, s.onDay e = true → day ≤ e → d ≤ e) ∧
      (s.dayFrom? day count = none → ∀ e, s.onDay e = true → day ≤ e → day + count ≤ e) := by
  -- by induction on how many days are left to look at
  induction count with
  | zero =>
    intro day
    exact ⟨by simp [dayFrom?], fun _ e _ hle => by simpa using hle⟩
  | succ count ih =>
    intro day
    obtain ⟨hsome, hnone⟩ := ih (day + 1)
    unfold dayFrom?
    by_cases hday : s.onDay day = true
    · rw [if_pos hday]
      refine ⟨fun d hd => ?_, by simp⟩
      obtain rfl := Option.some.inj hd
      exact ⟨hday, Int.le_refl _, fun e _ hle => hle⟩
    · rw [if_neg hday]
      -- this day is not one, so whatever is one comes later
      have hlater : ∀ e, s.onDay e = true → day ≤ e → day + 1 ≤ e := by
        intro e he hle
        rcases Int.lt_or_eq_of_le hle with hlt | rfl
        · exact hlt
        · exact absurd he hday
      constructor
      · intro d hd
        obtain ⟨hon, hle, hleast⟩ := hsome d hd
        exact ⟨hon, by omega, fun e he hle' => hleast e he (hlater e he hle')⟩
      · intro hd e he hle
        have hafter := hnone hd e he (hlater e he hle)
        omega

/-- A day with occurrences lies between the first day of 1970 and the last one of 2100. -/
theorem Proper.bounds_of_onDay (hs : s.Proper) {day : Int} (h : s.onDay day = true) :
    0 ≤ day ∧ day ≤ lastDay := by
  obtain ⟨⟨y, hy, hyear⟩, -⟩ := onDay_iff.mp h
  obtain ⟨hleast, hgreatest⟩ := mem_range_iff.mp (hs.years.subset hy)
  simp only [Unit.least, Unit.greatest] at hleast hgreatest
  constructor
  · by_contra hnot
    have hle := Date.year_ofDays_le (show day ≤ -1 by omega)
    have hbefore : (Date.ofDays (-1)).year = 1969 := by decide +kernel
    omega
  · by_contra hnot
    have hle := Date.year_ofDays_le (show lastDay + 1 ≤ day by omega)
    have hafter : (Date.ofDays (lastDay + 1)).year = 2101 := by decide +kernel
    omega

theorem Proper.time_lt (hs : s.Proper) {time : Nat} (h : s.AtTime time) : time < 86400 := by
  have hhour := hs.lt_of_mem_hours h.hour
  omega

/-- The instant of a time on a day. -/
theorem days_of_time (day : Int) {time : Nat} (h : time < 86400) :
    (⟨day * daySeconds + time, 0⟩ : Instant).days = day ∧
      (⟨day * daySeconds + time, 0⟩ : Instant).secondOfDay = time := by
  unfold Instant.days Instant.secondOfDay daySeconds
  constructor
  · dsimp only
    omega
  · dsimp only
    omega

theorem Proper.occurs_of_onDay (hs : s.Proper) {day : Int} {time : Nat}
    (hday : s.onDay day = true) (htime : s.AtTime time) :
    s.Occurs ⟨day * daySeconds + time, 0⟩ := by
  obtain ⟨hdays, hsecond⟩ := days_of_time day (hs.time_lt htime)
  exact occurs_iff.mpr ⟨rfl, hdays.symm ▸ hday, hsecond.symm ▸ htime⟩

/-- The search through the days after a day finds the first occurrence on them. -/
theorem nextDay_spec (hs : s.Proper) (day : Int) :
    (∀ b, s.nextDay day = some b → s.Occurs b ∧ (day + 1) * daySeconds ≤ b.seconds) ∧
      ∀ o, s.Occurs o → day < o.days → ∃ b, s.nextDay day = some b ∧ b ≤ o := by
  obtain ⟨htimeSome, htimeNone⟩ := timeFrom?_spec hs 0
  obtain ⟨hdaySome, hdayNone⟩ :=
    dayFrom?_spec (s := s) (lastDay + 1 - max (day + 1) 0).toNat (max (day + 1) 0)
  constructor
  · -- what is found is a time of the schedule on a day of the schedule
    intro b h
    refine ⟨?_, lt_of_nextDay h⟩
    unfold nextDay at h
    obtain ⟨time, htime, h⟩ := Option.bind_eq_some_iff.mp h
    obtain ⟨d, hd, h⟩ := Option.bind_eq_some_iff.mp h
    obtain rfl := Option.some.inj h
    exact hs.occurs_of_onDay (hdaySome d hd).1 (htimeSome time htime).1
  · intro o ho hlater
    obtain ⟨hwhole, hday, htime⟩ := occurs_iff.mp ho
    obtain ⟨hnonneg, hlast⟩ := hs.bounds_of_onDay hday
    have hfirst : max (day + 1) 0 ≤ o.days := Int.max_le.mpr ⟨hlater, hnonneg⟩
    -- the searches find something, since they could find this occurrence
    obtain ⟨time, hfound⟩ : ∃ time, s.timeFrom? 0 = some time := by
      refine Option.ne_none_iff_exists'.mp fun hnone => ?_
      exact Nat.not_lt_zero _ (htimeNone hnone _ htime)
    obtain ⟨d, hd⟩ : ∃ d, s.dayFrom? (max (day + 1) 0)
        (lastDay + 1 - max (day + 1) 0).toNat = some d := by
      refine Option.ne_none_iff_exists'.mp fun hnone => ?_
      have hle := hdayNone hnone o.days hday hfirst
      omega
    have htimeLe := (htimeSome time hfound).2.2 _ htime (Nat.zero_le _)
    have hdayLe := (hdaySome d hd).2.2 o.days hday hfirst
    refine ⟨⟨d * daySeconds + time, 0⟩, by simp only [nextDay, hfound, hd]; rfl, ?_⟩
    have hsplit := o.days_add_secondOfDay
    rw [Instant.le_iff]
    unfold daySeconds at *
    simp only
    omega

/-! ### The next occurrence -/

/-- What is found for the rest of a day is not after an occurrence that is not before it begins. -/
theorem today_le (hs : s.Proper) {start o : Instant} {time : Nat}
    (hfound : s.timeFrom? start.secondOfDay = some time) (ho : s.Occurs o)
    (hle : start.seconds ≤ o.seconds) :
    (⟨start.days * daySeconds + time, 0⟩ : Instant) ≤ o := by
  obtain ⟨-, -, htime⟩ := occurs_iff.mp ho
  obtain ⟨hat, -, hleast⟩ := (timeFrom?_spec hs _).1 time hfound
  have hlt := hs.time_lt hat
  have hstart := start.days_add_secondOfDay
  have hother := o.days_add_secondOfDay
  have hbound := o.secondOfDay_lt
  have hleast' : start.secondOfDay ≤ o.secondOfDay → time ≤ o.secondOfDay := hleast _ htime
  rw [Instant.le_iff]
  unfold daySeconds at *
  simp only
  omega

/-- When nothing is found for the rest of a day, occurrences come on later days. -/
theorem days_lt_of_none (hs : s.Proper) {start o : Instant}
    (hnone : (if s.onDay start.days then s.timeFrom? start.secondOfDay else none) = none)
    (ho : s.Occurs o) (hle : start.seconds ≤ o.seconds) : start.days < o.days := by
  obtain ⟨-, hday, htime⟩ := occurs_iff.mp ho
  have hstart := start.days_add_secondOfDay
  have hother := o.days_add_secondOfDay
  have hbound := start.secondOfDay_lt
  have hbound' := o.secondOfDay_lt
  have hne : start.days ≠ o.days := by
    intro heq
    rw [heq, if_pos hday] at hnone
    have hbefore := (timeFrom?_spec hs _).2 hnone _ htime
    unfold daySeconds at *
    omega
  unfold daySeconds at *
  omega

theorem occurs_of_next (hs : s.Proper) {a b : Instant} (h : s.next a = some b) : s.Occurs b := by
  unfold next at h
  generalize (a.plus nanosPerSecond).truncate = start at h
  dsimp only at h
  split at h
  · cases h
  · split at h
    · rename_i time htoday
      obtain rfl := Option.some.inj h
      obtain ⟨hday, htime⟩ := Option.ite_none_right_eq_some.mp htoday
      exact hs.occurs_of_onDay hday ((timeFrom?_spec hs _).1 time htime).1
    · exact ((nextDay_spec hs _).1 b h).1

/-- A schedule comes up again only after instants of the year 0 or later. -/
theorem le_year_of_next {a b : Instant} (h : s.next a = some b) :
    0 ≤ (a.plus nanosPerSecond).date.year := by
  unfold next at h
  dsimp only at h
  split at h
  · cases h
  · rename_i hyear
    exact Int.not_lt.mp hyear

/-- The next occurrence after an instant whose next second is not before the year 0 is the least of
those that are later. -/
theorem isNext_next (hs : s.Proper) {a : Instant} (ha : a.Regular)
    (hyear : 0 ≤ (a.plus nanosPerSecond).date.year) : s.IsNext a (s.next a) := by
  refine ⟨fun b hb => ⟨occurs_of_next hs hb, lt_of_next hb⟩, fun o ho hlt => ?_⟩
  have hstart : (a.plus nanosPerSecond).truncate.seconds = a.seconds + 1 :=
    ha.seconds_plus_second
  have hle : (a.plus nanosPerSecond).truncate.seconds ≤ o.seconds := by
    have hwhole := ho.whole
    rw [Instant.lt_iff] at hlt
    omega
  have hdate : (a.plus nanosPerSecond).truncate.date = (a.plus nanosPerSecond).date := rfl
  rw [next, hdate, if_neg (by omega)]
  generalize (a.plus nanosPerSecond).truncate = start at hle
  dsimp only
  split
  · rename_i time htoday
    obtain ⟨-, hfound⟩ := Option.ite_none_right_eq_some.mp htoday
    exact ⟨_, rfl, today_le hs hfound ho hle⟩
  · rename_i htoday
    exact (nextDay_spec hs start.days).2 o ho (days_lt_of_none hs htoday ho hle)

end Schedule

end Cron

end Courier

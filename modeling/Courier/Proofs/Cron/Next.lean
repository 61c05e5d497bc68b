import Courier.Cron.Schedule
import Courier.Proofs.Time.Calendar
import Courier.Proofs.Time.Order

/-!
The next occurrence of a schedule.

The search for it goes from the second after an instant upwards: through the times of that day, then
through the days after it, up to the last day of the last year that a schedule can have.  Two things
about it are proved here that hold for all schedules, also for those that no text spells.

It goes upwards, so what it finds is not before where it begins (`le_of_timeFrom?`,
`le_of_dayFrom?`), and where it begins is after the instant, leap seconds included
(`Time.Instant.seconds_lt_plus_second`).

Each day is looked up in the years of the schedule, so when these are over nothing is found, and
this is known without going through the days (`dayFrom?_of_past`).

Main statements: what the search finds is later than the instant (`Schedule.lt_of_next`), and it
finds nothing when the years of the schedule are over (`Schedule.next_of_past`).
-/

namespace Courier

open Time

/-- A second later is at least the next whole second. -/
theorem Time.Instant.seconds_lt_plus_second (a : Instant) :
    a.seconds < (a.plus nanosPerSecond).seconds := by
  have hsecs : nanosPerSecond / nanosPerSecond = 1 := by decide
  have hleap : ¬ (a.isLeap = true ∧ (1 : Nat) = 0 ∧
      a.nanos + nanosPerSecond % nanosPerSecond < 2 * nanosPerSecond) := by simp
  rw [Instant.plus, hsecs, if_neg hleap]
  exact Int.lt_of_lt_of_le (Int.lt_succ a.seconds)
    (Int.le_add_of_nonneg_right (Int.natCast_nonneg _))

namespace Cron.Schedule

variable {s : Schedule}

theorem le_of_timeFrom? {start time : Nat} (h : s.timeFrom? start = some time) : start ≤ time := by
  obtain ⟨-, hour, -, -, hminutes, -⟩ := List.findSome?_eq_some_iff.mp h
  obtain ⟨-, minute, -, -, hseconds, -⟩ := List.findSome?_eq_some_iff.mp hminutes
  obtain ⟨second, hfind, rfl⟩ := Option.map_eq_some_iff.mp hseconds
  simpa using List.find?_some hfind

theorem le_of_dayFrom? {day d : Int} {count : Nat} (h : s.dayFrom? day count = some d) :
    day ≤ d := by
  induction count generalizing day with
  | zero => cases h
  | succ count ih =>
    unfold dayFrom? at h
    split at h
    · obtain rfl := Option.some.inj h
      exact Int.le_refl _
    · have hle := ih h
      omega

/-- The search through the days begins with the day after. -/
theorem lt_of_nextDay {day : Int} {b : Instant} (h : s.nextDay day = some b) :
    (day + 1) * daySeconds ≤ b.seconds := by
  unfold nextDay at h
  obtain ⟨time, -, h⟩ := Option.bind_eq_some_iff.mp h
  obtain ⟨d, hday, h⟩ := Option.bind_eq_some_iff.mp h
  obtain rfl := Option.some.inj h
  have hle := le_of_dayFrom? hday
  have hfirst : day + 1 ≤ d := Int.le_trans (Int.le_max_left _ _) hle
  show (day + 1) * daySeconds ≤ d * daySeconds + (time : Int)
  unfold daySeconds
  omega

/-- The next occurrence after an instant is later than the instant. -/
theorem lt_of_next {a b : Instant} (h : s.next a = some b) : a < b := by
  -- the search begins one second after the instant, at a whole second
  have hlater := a.seconds_lt_plus_second
  have hstart := (a.plus nanosPerSecond).truncate.days_add_secondOfDay
  have htruncate : (a.plus nanosPerSecond).truncate.seconds = (a.plus nanosPerSecond).seconds := rfl
  rw [htruncate] at hstart
  rw [Instant.lt_iff]
  unfold next at h
  generalize (a.plus nanosPerSecond).truncate = start at h hstart
  simp only [Option.ite_none_left_eq_some] at h
  obtain ⟨-, h⟩ := h
  split at h
  · -- an occurrence on the same day
    rename_i time htoday
    obtain rfl := Option.some.inj h
    have hle := le_of_timeFrom? (Option.ite_none_right_eq_some.mp htoday).2
    left
    show a.seconds < start.days * daySeconds + (time : Int)
    omega
  · -- an occurrence on a day after it
    have hle := lt_of_nextDay h
    have hday := start.secondOfDay_lt
    unfold daySeconds at hle hstart
    left
    omega

/-! ### Schedules of the past -/

theorem onDay_of_past {day : Int} (h : ∀ y ∈ s.years, (y : Int) < (Date.ofDays day).year) :
    s.onDay day = false := by
  have hyears : s.years.any (fun y => (y : Int) == (Date.ofDays day).year) = false := by
    refine List.any_eq_false.mpr fun y hy => ?_
    have hlt := h y hy
    simp only [beq_iff_eq]
    omega
  simp only [onDay, hyears, Bool.false_and]

theorem dayFrom?_of_past {day : Int} (h : ∀ y ∈ s.years, (y : Int) < (Date.ofDays day).year)
    (count : Nat) : s.dayFrom? day count = none := by
  induction count generalizing day with
  | zero => rfl
  | succ count ih =>
    rw [dayFrom?, onDay_of_past h]
    refine ih fun y hy => Int.lt_of_lt_of_le (h y hy) (Date.year_ofDays_le ?_)
    omega

/-- A schedule whose years are over does not come up again. -/
theorem next_of_past {a : Instant} (h : ∀ y ∈ s.years, (y : Int) < a.date.year) :
    s.next a = none := by
  have hlater := a.seconds_lt_plus_second
  have htruncate : (a.plus nanosPerSecond).truncate.seconds = (a.plus nanosPerSecond).seconds := rfl
  have hdays : a.days ≤ (a.plus nanosPerSecond).truncate.days := by
    unfold Instant.days daySeconds
    omega
  unfold next
  generalize (a.plus nanosPerSecond).truncate = start at hdays
  have hpast : ∀ day, start.days ≤ day → ∀ y ∈ s.years, (y : Int) < (Date.ofDays day).year :=
    fun day hday y hy =>
      Int.lt_of_lt_of_le (h y hy) (Date.year_ofDays_le (Int.le_trans hdays hday))
  have htoday : s.onDay start.days = false := onDay_of_past (hpast _ (Int.le_refl _))
  have hfirst : start.days ≤ max (start.days + 1) 0 :=
    Int.le_trans (Int.le_of_lt (Int.lt_succ _)) (Int.le_max_left _ _)
  have hnextDay : s.nextDay start.days = none := by
    rw [nextDay, dayFrom?_of_past (hpast _ hfirst)]
    simp
  simp [htoday, hnextDay]

end Cron.Schedule
end Courier

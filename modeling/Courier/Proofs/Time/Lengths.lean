import Courier.Proofs.Time.Elapsed
import Courier.Proofs.Time.Stored
import Courier.Task.Basic

/-!
Instants some seconds later.

`Task.after` goes through numbers of several widths: a length of time has a greatest one, the
seconds of a day are added in 64 bits, the days in 32 bits, and dates have a first and a last day.
No sum leaves its width where a length is accepted (`Instant.clockLater_lt`), so nothing wraps.

What is reached is exact (`Instant.seconds_of_later?`).  Where nothing is reached the exact sum is
beyond the last instant (`Instant.greatest_lt_of_later?`, `Instant.greatest_lt_of_bind`), if it
begins at an instant that can be represented; the bounds on lengths and days are wider than those on
instants.  A leap second is left as soon as any time passes, and so the exact sum holds only outside
of it.

Main statement: outside of leap seconds the instant some seconds later is the exact sum, or the last
instant if the sum is beyond it (`Instant.after_eq_secondsLater`).
-/

namespace Courier.Time

/-- An accepted length is the number of seconds. -/
theorem length?_eq_some_iff {n : Nat} {s : Int} :
    length? n = some s ↔ n ≤ greatestLength ∧ s = n := by
  unfold length? signed64 greatestLength bound63
  split
  · simp only [reduceCtorEq, false_iff]
    omega
  · rw [if_pos (by omega)]
    simp only [Option.some.injEq]
    omega

theorem dayLater?_eq_some_iff {day s later : Int} :
    dayLater? day s = some later ↔
      (-greatestLength ≤ s ∧ s ≤ greatestLength) ∧
      (-bound31 ≤ s / daySeconds ∧ s / daySeconds < bound31) ∧
      (leastDay ≤ day + s / daySeconds ∧ day + s / daySeconds ≤ greatestDay) ∧
        day + s / daySeconds = later := by
  simp only [dayLater?, Option.ite_none_left_eq_some, Option.some.injEq, not_or, Int.not_lt,
    Int.not_le]

namespace Instant

/-- The instant of a number of nanoseconds since 1970. -/
def ofTotal (t : Int) : Instant := ⟨t / nanosPerSecond, (t % nanosPerSecond).toNat⟩

/-- The instant some seconds later, but not after the last one. -/
def secondsLater (a : Instant) (n : Nat) : Instant :=
  ofTotal (min (a.total + n * nanosPerSecond) greatest.total)

theorem ordinary_ofTotal (t : Int) : (ofTotal t).Ordinary ∧ (ofTotal t).total = t := by
  unfold Ordinary total ofTotal nanosPerSecond
  dsimp only
  omega

theorem ordinary_greatest : greatest.Ordinary := by decide

/-- The exact sum or the last instant, in nanoseconds. -/
theorem total_secondsLater (a : Instant) (n : Nat) :
    (a.secondsLater n).Ordinary ∧
      (a.secondsLater n).total = min (a.total + n * nanosPerSecond) greatest.total :=
  ordinary_ofTotal _

/-- The time of day is the exact one; time that passes at all leaves a leap second. -/
theorem clockLater_natCast (a : Instant) (n : Nat) :
    a.clockLater n = (a.seconds % daySeconds + n,
      if a.isLeap ∧ n ≠ 0 then a.nanos - nanosPerSecond else a.nanos) := by
  have hnot : ¬(n : Int) < 0 := by omega
  unfold clockLater
  by_cases hleap : a.isLeap = true
  · rcases Nat.eq_zero_or_pos n with rfl | hpos
    · simp
    · have hne : n ≠ 0 := Nat.ne_of_gt hpos
      simp [hleap, hne, hnot]
  · simp [hleap]

/-- What is reached some seconds later, from the day and the second of the day. -/
theorem later?_eq_some_iff {a b : Instant} {n : Nat} :
    a.later? n = some b ↔ ∃ day, dayLater? a.days
      (a.seconds % daySeconds + n - (a.seconds % daySeconds + n) % daySeconds) = some day ∧
        ⟨day * daySeconds + (a.seconds % daySeconds + n) % daySeconds,
          if a.isLeap ∧ n ≠ 0 then a.nanos - nanosPerSecond else a.nanos⟩ = b := by
  rw [later?, clockLater_natCast, Option.map_eq_some_iff]

/-- What is reached some seconds later is the exact second, at the latest the last one. -/
theorem seconds_of_later? {a b : Instant} {n : Nat} (h : a.later? n = some b) :
    b.seconds = a.seconds + n ∧ b.seconds ≤ greatestSeconds ∧ (n = 0 → b = a) := by
  obtain ⟨day, hday, rfl⟩ := later?_eq_some_iff.mp h
  obtain ⟨-, -, ⟨-, hlast⟩, rfl⟩ := dayLater?_eq_some_iff.mp hday
  -- seconds that make up whole days go to the days, and the rest stays in the day
  have hseconds := a.days_add_secondOfDay
  have hsum : (a.days + (a.seconds % daySeconds + n - (a.seconds % daySeconds + n) % daySeconds) /
      daySeconds) * daySeconds + (a.seconds % daySeconds + n) % daySeconds = a.seconds + n := by
    unfold days daySeconds
    omega
  refine ⟨hsum, ?_, ?_⟩
  · unfold days daySeconds greatestDay greatestSeconds at *
    dsimp only
    omega
  · rintro rfl
    rw [hsum]
    simp

/-- Where a length is accepted the sum of the seconds does not leave 64 bits. -/
theorem clockLater_lt (a : Instant) {n : Nat} {s : Int} (h : length? n = some s) :
    0 ≤ (a.clockLater s).1 ∧ (a.clockLater s).1 < bound63 := by
  obtain ⟨hle, rfl⟩ := length?_eq_some_iff.mp h
  rw [clockLater_natCast]
  unfold daySeconds bound63
  unfold greatestLength at hle
  dsimp only
  omega

/-- Where nothing is reached, the exact sum is beyond the last instant. -/
theorem greatest_lt_of_later? {a : Instant} (ha : a.Representable) {n : Nat}
    (h : a.later? n = none) : greatestSeconds < a.seconds + n := by
  rw [later?, clockLater_natCast, Option.map_eq_none_iff] at h
  unfold Representable leastSeconds greatestSeconds at *
  -- had the sum been in range, every part of it would have been
  by_contra hle
  have hsome : dayLater? a.days
      (a.seconds % daySeconds + n - (a.seconds % daySeconds + n) % daySeconds) =
        some (a.days + (a.seconds % daySeconds + n - (a.seconds % daySeconds + n) % daySeconds) /
          daySeconds) := by
    rw [dayLater?_eq_some_iff]
    unfold days daySeconds greatestLength bound31 leastDay greatestDay
    refine ⟨⟨by omega, by omega⟩, ⟨by omega, by omega⟩, ⟨by omega, by omega⟩, rfl⟩
  rw [hsome] at h
  cases h

/-! ### Saturation -/

/-- The instant some seconds later is the exact second or the last instant. -/
theorem after_cases (a : Instant) (n : Nat) :
    Task.after a n = greatest ∨ (Task.after a n).seconds = a.seconds + n ∧
      (Task.after a n).seconds ≤ greatestSeconds ∧ (n = 0 → Task.after a n = a) := by
  unfold Task.after
  rcases hlater : (length? n).bind a.later? with - | b
  · exact .inl rfl
  · obtain ⟨s, hs, hb⟩ := Option.bind_eq_some_iff.mp hlater
    obtain ⟨-, rfl⟩ := length?_eq_some_iff.mp hs
    exact .inr (seconds_of_later? hb)

/-- Where a length is not accepted or leads nowhere, the exact sum is beyond the last instant. -/
theorem greatest_lt_of_bind {a : Instant} (ha : a.Representable) {n : Nat}
    (h : (length? n).bind a.later? = none) : greatestSeconds < a.seconds + n := by
  -- the length itself may be too great, or a part of the sum
  rcases hlength : length? n with - | s
  · have hlong : ¬n ≤ greatestLength := fun hle => by
      rw [length?_eq_some_iff.mpr ⟨hle, rfl⟩] at hlength
      cases hlength
    unfold Representable leastSeconds at ha
    unfold greatestLength at hlong
    unfold greatestSeconds
    omega
  · rw [hlength] at h
    obtain ⟨-, rfl⟩ := length?_eq_some_iff.mp hlength
    exact greatest_lt_of_later? ha h

/-- Outside of leap seconds the instant some seconds later is the exact one, or the last one. -/
theorem after_eq_secondsLater {a : Instant} (ha : a.Ordinary) (hrange : a.Representable) (n : Nat) :
    Task.after a n = a.secondsLater n := by
  obtain ⟨hordinary, htotal⟩ := a.total_secondsLater n
  unfold Task.after
  -- nothing is reached and the last instant is taken, or the exact sum is reached
  rcases hlater : (length? n).bind a.later? with - | b
  · have hbeyond := greatest_lt_of_bind hrange hlater
    refine ordinary_greatest.eq_of_total hordinary (Eq.symm (htotal.trans (Int.min_eq_right ?_)))
    unfold total greatest nanosPerSecond
    dsimp only
    omega
  · obtain ⟨s, hs, hb⟩ := Option.bind_eq_some_iff.mp hlater
    obtain ⟨-, rfl⟩ := length?_eq_some_iff.mp hs
    obtain ⟨hseconds, hlast, -⟩ := seconds_of_later? hb
    have hnanos : b.nanos = a.nanos := by
      obtain ⟨day, -, rfl⟩ := later?_eq_some_iff.mp hb
      simp [ha.isLeap_eq]
    have hb : b.Ordinary := by rwa [Ordinary, hnanos]
    refine hb.eq_of_total hordinary (Eq.trans ?_ (htotal.trans (Int.min_eq_left ?_)).symm)
    · unfold total nanosPerSecond
      rw [hseconds, hnanos]
      omega
    · unfold Ordinary at ha
      unfold total greatest nanosPerSecond at *
      dsimp only
      omega

/-- More seconds do not lead to an earlier instant, and none lead into the past. -/
theorem secondsLater_mono (a : Instant) {m n : Nat} (h : m ≤ n) :
    a.secondsLater m ≤ a.secondsLater n := by
  obtain ⟨hm, hmtotal⟩ := a.total_secondsLater m
  obtain ⟨hn, hntotal⟩ := a.total_secondsLater n
  refine (hm.le_iff hn).mpr ?_
  rw [hmtotal, hntotal]
  unfold nanosPerSecond
  omega

theorem le_secondsLater {a : Instant} (ha : a.Ordinary) (hrange : a.Representable) (n : Nat) :
    a ≤ a.secondsLater n := by
  obtain ⟨hn, htotal⟩ := a.total_secondsLater n
  refine (ha.le_iff hn).mpr ?_
  rw [htotal]
  unfold Representable greatestSeconds at hrange
  unfold Ordinary at ha
  unfold total greatest greatestSeconds nanosPerSecond at *
  dsimp only
  omega

end Instant

end Courier.Time

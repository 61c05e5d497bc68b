import Courier.Time.Date

/-!
The calendar.

A day number is split into eras of four hundred years, years that begin in March, and days of such a
year (`ofDays_parts`).  A year that begins in March has its leap day at the end, so the length of a
month does not depend on the year, but for the last one.  The year is found by a division of the
days of an era, from which the leap days before it have been taken out; that this hits the year
which the day is in is `dayOfYear_bounds`, and that only leap years have a day more is
`leap_of_dayOfYear`.

These are facts of linear arithmetic, once it is known in which century of the era and in which year
of four the day is; the cases are split by these two.

Main statements: the number of the date of a day is the number of the day (`Date.toDays_ofDays`),
this date exists (`Date.valid_ofDays`), and earlier days have earlier dates (`Date.before_ofDays`).
-/

namespace Courier.Time.Date

/-- The years of an era, counted by their days, have at most 366 days each. -/
theorem dayOfYear_bounds {day year : Int} (h0 : 0 ≤ day) (h1 : day < eraDays)
    (hyear : year = (day - day / 1460 + day / 36524 - day / 146096) / 365) :
    0 ≤ year ∧ year < 400 ∧ 0 ≤ day - (365 * year + year / 4 - year / 100) ∧
      day - (365 * year + year / 4 - year / 100) ≤ 365 := by
  unfold eraDays at h1
  refine ⟨by omega, by omega, ?_⟩
  by_cases hlast : day = 146096
  · -- the leap day at the end of the era
    subst hlast
    obtain rfl : year = 399 := by omega
    decide
  · have hera : day / 146096 = 0 := by omega
    -- the day lies in one of four centuries, and its year is one of four in its cycle
    have hcentury : day / 36524 = 0 ∨ day / 36524 = 1 ∨ day / 36524 = 2 ∨ day / 36524 = 3 := by
      omega
    have hcycle : year % 4 = 0 ∨ year % 4 = 1 ∨ year % 4 = 2 ∨ year % 4 = 3 := by omega
    have hyears : year / 100 = day / 36524 := by
      rcases hcentury with hc | hc | hc | hc <;> omega
    -- within a century a leap day is over at most one year before its cycle is
    have hleap : day / 1460 = year / 4 ∨ day / 1460 = year / 4 + 1 := by
      rcases hcentury with hc | hc | hc | hc <;> rcases hcycle with hr | hr | hr | hr <;> omega
    rw [hyears]
    rcases hleap with hl | hl <;> rcases hcycle with hr | hr | hr | hr <;> omega

/-- A year of 366 days ends with a leap day. -/
theorem leap_of_dayOfYear {day year : Int} (h0 : 0 ≤ day) (h1 : day < eraDays)
    (hyear : year = (day - day / 1460 + day / 36524 - day / 146096) / 365)
    (hlast : day - (365 * year + year / 4 - year / 100) = 365) :
    (year + 1) % 4 = 0 ∧ ((year + 1) % 100 ≠ 0 ∨ year = 399) := by
  unfold eraDays at h1
  -- the last day of an era is the leap day of the year 400
  by_cases hend : day = 146096
  · omega
  · have hera : day / 146096 = 0 := by omega
    have hcentury : day / 36524 = 0 ∨ day / 36524 = 1 ∨ day / 36524 = 2 ∨ day / 36524 = 3 := by
      omega
    have hcycle : year % 4 = 0 ∨ year % 4 = 1 ∨ year % 4 = 2 ∨ year % 4 = 3 := by omega
    have hyears : year / 100 = day / 36524 := by
      rcases hcentury with hc | hc | hc | hc <;> omega
    constructor
    · rcases hcentury with hc | hc | hc | hc <;> rcases hcycle with hr | hr | hr | hr <;> omega
    · rcases hcentury with hc | hc | hc | hc <;> rcases hcycle with hr | hr | hr | hr <;> omega

/-- The parts of a day number: era, year, day of the year and month, all counted from March. -/
theorem ofDays_parts (n : Int) :
    ∃ era year day month : Int,
      n + epochShift = eraDays * era + (365 * year + year / 4 - year / 100) + day ∧
      0 ≤ year ∧ year < 400 ∧ 0 ≤ day ∧ day ≤ 365 ∧
      (day = 365 → isLeap (year + era * 400 + 1) = true) ∧ month = (5 * day + 2) / 153 ∧
      ofDays n =
        ⟨if month < 10 then year + era * 400 else year + era * 400 + 1,
          (if month < 10 then month + 3 else month - 9).toNat,
          (day - (153 * month + 2) / 5 + 1).toNat⟩ := by
  have hfirst : 0 ≤ (n + epochShift) % eraDays := Int.emod_nonneg _ (by decide)
  have hlast : (n + epochShift) % eraDays < eraDays := Int.emod_lt_of_pos _ (by decide)
  obtain ⟨h0, h400, hday0, hday⟩ := dayOfYear_bounds hfirst hlast rfl
  refine ⟨(n + epochShift) / eraDays, _, _, _, ?_, h0, h400, hday0, hday, ?_, rfl, ?_⟩
  · have hsplit := Int.mul_ediv_add_emod (n + epochShift) eraDays
    omega
  · intro hlong
    obtain ⟨hfour, hcentury⟩ := leap_of_dayOfYear hfirst hlast rfl hlong
    generalize ((n + epochShift) % eraDays - (n + epochShift) % eraDays / 1460 +
      (n + epochShift) % eraDays / 36524 - (n + epochShift) % eraDays / 146096) / 365 = year at *
    unfold isLeap
    refine decide_eq_true ⟨?_, ?_⟩
    · omega
    · omega
  · unfold ofDays
    simp only
    congr 1
    -- in January and February the year has changed already
    split <;> split <;> omega

theorem toDays_ofDays (n : Int) : (ofDays n).toDays = n := by
  obtain ⟨era, year, day, month, hn, h0, h400, hday0, hday, -, hmonth, hof⟩ := ofDays_parts n
  unfold epochShift eraDays at hn
  have hm : 0 ≤ month ∧ month ≤ 11 := by omega
  have hd : ((day - (153 * month + 2) / 5 + 1).toNat : Int) = day - (153 * month + 2) / 5 + 1 := by
    omega
  -- counted from March, the year is the one of the era again
  have hyear : ∀ y : Int, y = year + era * 400 →
      365 * y + y / 4 - y / 100 + y / 400 =
        146097 * era + (365 * year + year / 4 - year / 100) := by
    intro y hy
    omega
  rw [hof]
  -- from March to December, or in the next year
  by_cases h10 : month < 10
  · have hnot : ¬ (month + 3).toNat ≤ 2 := by omega
    have hmarch : (((month + 3).toNat : Int) + 9) % 12 = month := by omega
    simp only [toDays, if_pos h10, if_neg hnot, hmarch, hd, hyear _ rfl, epochShift]
    omega
  · have hle : (month - 9).toNat ≤ 2 := by omega
    have hmarch : (((month - 9).toNat : Int) + 9) % 12 = month := by omega
    simp only [toDays, if_neg h10, if_pos hle, hmarch, hd, Int.add_sub_cancel, hyear _ rfl,
      epochShift]
    omega

theorem ofDays_le (n : Int) : (ofDays n).month ≤ 12 ∧ (ofDays n).day ≤ 31 := by
  obtain ⟨era, year, day, month, -, h0, h400, hday0, hday, -, hmonth, hof⟩ := ofDays_parts n
  rw [hof]
  constructor
  · simp only
    split <;> omega
  · simp only
    omega

/-- The date of a day exists in the calendar. -/
theorem valid_ofDays (n : Int) : (ofDays n).Valid := by
  obtain ⟨era, year, day, month, -, h0, h400, hday0, hday, hleap, hmonth, hof⟩ := ofDays_parts n
  have hm : 0 ≤ month ∧ month ≤ 11 := by omega
  rw [hof]
  refine ⟨?_, ?_, ?_, ?_⟩
  · simp only
    split <;> omega
  · simp only
    split <;> omega
  · simp only
    omega
  · by_cases hfebruary : month = 11
    · -- a 29th only ends a long year
      subst hfebruary
      have hlength : monthLength (year + era * 400 + 1) 2 =
        if isLeap (year + era * 400 + 1) then 29 else 28 := rfl
      show (day - (153 * 11 + 2) / 5 + 1).toNat ≤ monthLength (year + era * 400 + 1) 2
      rw [hlength]
      by_cases hlong : day = 365
      · rw [if_pos (hleap hlong)]
        omega
      · split <;> omega
    · -- all other months have one length in every year
      have hcases : month = 0 ∨ month = 1 ∨ month = 2 ∨ month = 3 ∨ month = 4 ∨ month = 5 ∨
          month = 6 ∨ month = 7 ∨ month = 8 ∨ month = 9 ∨ month = 10 := by omega
      rcases hcases with rfl | rfl | rfl | rfl | rfl | rfl | rfl | rfl | rfl | rfl | rfl <;>
        simp [monthLength] <;> omega

/-! ### Order -/

/-- The days before a year, counted from March of the year zero. -/
def yearStart (y : Int) : Int := 365 * y + y / 4 - y / 100 + y / 400

theorem yearStart_era (era year : Int) :
    yearStart (year + era * 400) = eraDays * era + yearStart year := by
  unfold yearStart eraDays
  omega

/-- Every year has at least 365 days. -/
theorem yearStart_add_le {y z : Int} (h : y < z) : yearStart y + 365 ≤ yearStart z := by
  have hy : y / 4 = 25 * (y / 100) + y % 100 / 4 := by omega
  have hz : z / 4 = 25 * (z / 100) + z % 100 / 4 := by omega
  have hcentury : y / 100 ≤ z / 100 := by omega
  have hera : y / 400 ≤ z / 400 := by omega
  have hleap : 24 * (y / 100) + y % 100 / 4 ≤ 24 * (z / 100) + z % 100 / 4 := by
    rcases Int.lt_or_eq_of_le hcentury with hlt | heq <;> omega
  unfold yearStart
  omega

/-- Whether a date is before another one: by years, then by months, then by days. -/
def Before (d e : Date) : Prop :=
  d.year < e.year ∨ d.year = e.year ∧
    (d.month < e.month ∨ d.month = e.month ∧ d.day < e.day)

/-- Earlier days have earlier dates. -/
theorem before_ofDays {m n : Int} (h : m < n) : (ofDays m).Before (ofDays n) := by
  obtain ⟨era, year, day, month, hm, h0, h400, hday0, hday, -, hmonth, hof⟩ := ofDays_parts m
  obtain ⟨era', year', day', month', hn, h0', h400', hday0', hday', -, hmonth', hof'⟩ :=
    ofDays_parts n
  have hstart : ∀ y : Int, 0 ≤ y → y < 400 → yearStart y = 365 * y + y / 4 - y / 100 := by
    intro y hy hy'
    unfold yearStart
    omega
  -- first by years that begin in March
  have hyears : year + era * 400 < year' + era' * 400 ∨
      year + era * 400 = year' + era' * 400 ∧ day < day' := by
    have hm' : m + epochShift = yearStart (year + era * 400) + day := by
      rw [yearStart_era, hstart year h0 h400, hm]
    have hn' : n + epochShift = yearStart (year' + era' * 400) + day' := by
      rw [yearStart_era, hstart year' h0' h400', hn]
    rcases Int.lt_trichotomy (year + era * 400) (year' + era' * 400) with hlt | heq | hgt
    · exact .inl hlt
    · rw [heq] at hm'
      exact .inr ⟨heq, by omega⟩
    · have hlonger := yearStart_add_le hgt
      omega
  clear hm hn hstart h0 h400 h0' h400'
  rw [hof, hof']
  unfold Before
  simp only
  -- in another year the months do not matter
  rcases hyears with hlt | ⟨heq, hlt⟩
  · split <;> split <;> omega
  · split <;> split <;> omega

theorem year_ofDays_le {m n : Int} (h : m ≤ n) : (ofDays m).year ≤ (ofDays n).year := by
  rcases Int.lt_or_eq_of_le h with hlt | rfl
  · rcases before_ofDays hlt with hyear | ⟨hyear, -⟩
    · exact Int.le_of_lt hyear
    · exact Int.le_of_eq hyear
  · exact Int.le_refl _

end Courier.Time.Date

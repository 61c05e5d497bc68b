import Courier.Proofs.Cron.Minutes

/-!
Expressions that are widened.

An expression gets a seconds field if it has five words, however many fields it has.  Five fields
are accepted just if they are five words (`Schedule.parse_of_five`).  Six or seven are read as these
just if they are not five words (`Schedule.parse_of_ofFields?`): behind another seconds field each
of them would be one of the next unit, and no six fields denote the same numbers one unit further
(`Denotes.not_shifted`).

The argument goes along three fields.  Behind the seconds field of zero the first one denotes 0
alone, as seconds and so as minutes, which have the same range.  Items that are accepted as hours
denote at least the same numbers as minutes (`minutes_of_hours`), so the hours would be 0 alone; but
items that are accepted as hours and as days of the month denote an hour from 1 on
(`exists_mem_hours`).

The rest is about words: a text of words that are fields has as many fields as words only if its
blanks are those of the grammar, since the grammar knows fewer blanks than words do.

Main statement: `Schedule.widening`, with one field of `Schedule.Widening` for each part.
-/

namespace Courier.Cron

/-! ### The numbers of items -/

theorem map_of_mapM {α β : Type} {f : α → Option β} {as : List α} {bs : List β}
    (h : as.mapM f = some bs) : as.map f = bs.map some := by
  induction as generalizing bs with
  | nil =>
    obtain rfl := Option.some.inj h
    rfl
  | cons a as ih =>
    rw [List.mapM_cons] at h
    obtain ⟨b, hb, h⟩ := Option.bind_eq_some_iff.mp h
    obtain ⟨bs', hbs, h⟩ := Option.bind_eq_some_iff.mp h
    obtain rfl := Option.some.inj h
    rw [List.map_cons, List.map_cons, hb, ih hbs]

/-- Every item of a field has its steps. -/
theorem exists_steps {u : Unit} {is : List Item} {ns : List Nat} (h : ordinals? u is = some ns)
    {i : Item} (hi : i ∈ is) : ∃ st, i.steps? u = some st := by
  obtain ⟨sts, hsts, -⟩ := Option.bind_eq_some_iff.mp h
  have hmem : i.steps? u ∈ sts.map some := map_of_mapM hsts ▸ List.mem_map_of_mem hi
  obtain ⟨st, -, hst⟩ := List.mem_map.mp hmem
  exact ⟨st, hst.symm⟩

/-- The numbers of a field are those of the range of its unit that one of its items holds. -/
theorem mem_ordinals?_iff {u : Unit} {is : List Item} {ns : List Nat}
    (h : ordinals? u is = some ns) {n : Nat} :
    n ∈ ns ↔ n ∈ u.range ∧ ∃ i ∈ is, ∃ st, i.steps? u = some st ∧ st.holds n = true := by
  obtain ⟨sts, hsts, h⟩ := Option.bind_eq_some_iff.mp h
  obtain rfl := Option.some.inj h
  have hmap := map_of_mapM hsts
  rw [List.mem_filter, List.any_eq_true]
  refine and_congr_right fun _ => ?_
  constructor
  · rintro ⟨st, hst, hholds⟩
    have hmem : some st ∈ is.map (Item.steps? u) := hmap ▸ List.mem_map_of_mem hst
    obtain ⟨i, hi, hsteps⟩ := List.mem_map.mp hmem
    exact ⟨i, hi, st, hsteps, hholds⟩
  · rintro ⟨i, hi, st, hsteps, hholds⟩
    have hmem : i.steps? u ∈ sts.map some := hmap ▸ List.mem_map_of_mem hi
    obtain ⟨st', hst', hsteps'⟩ := List.mem_map.mp hmem
    obtain rfl := Option.some.inj (hsteps'.trans hsteps)
    exact ⟨st', hst', hholds⟩

/-! ### Items of one unit read in another -/

/-- Seconds and minutes are the same numbers. -/
theorem ordinals?_second (is : List Item) : ordinals? .second is = ordinals? .minute is := by
  have hsteps : Item.steps? .second = Item.steps? .minute := by
    funext i
    cases i <;> rfl
  unfold ordinals?
  rw [hsteps]
  rfl

theorem between?_eq_some_iff {u : Unit} {first last : Nat} {p : Nat × Nat} :
    between? u first last = some p ↔
      (u.least ≤ first ∧ first ≤ last ∧ last ≤ u.greatest) ∧ p = (first, last) := by
  unfold between?
  rw [Option.ite_none_right_eq_some]
  exact and_congr_right fun _ => ⟨fun h => (Option.some.inj h).symm, fun h => h ▸ rfl⟩

/-- A stretch of hours that is one of minutes begins with the same number, and ends with the same or
a greater one. -/
theorem bounds?_hour_minute {sp : Span} {p q : Nat × Nat} (hp : sp.bounds? .hour = some p)
    (hq : sp.bounds? .minute = some q) : p.1 = q.1 ∧ p.2 ≤ q.2 := by
  cases sp with
  | all =>
    cases hp
    cases hq
    decide
  | point n =>
    obtain ⟨-, rfl⟩ := between?_eq_some_iff.mp hp
    obtain ⟨-, rfl⟩ := between?_eq_some_iff.mp hq
    exact ⟨rfl, Nat.le_refl _⟩
  | range a b =>
    obtain ⟨-, rfl⟩ := between?_eq_some_iff.mp hp
    obtain ⟨-, rfl⟩ := between?_eq_some_iff.mp hq
    exact ⟨rfl, Nat.le_refl _⟩
  | named a b => cases hp

/-- A stretch of hours that is one of days of the month is that of all hours, or it begins with an
hour from 1 on. -/
theorem bounds?_hour_dayOfMonth {sp : Span} {p q : Nat × Nat} (hp : sp.bounds? .hour = some p)
    (hq : sp.bounds? .dayOfMonth = some q) :
    p = (0, 23) ∧ sp = .all ∨ 1 ≤ p.1 ∧ p.1 ≤ p.2 ∧ p.2 ≤ 23 := by
  have hfirst : Unit.dayOfMonth.least = 1 := rfl
  have hlast : Unit.hour.greatest = 23 := rfl
  cases sp with
  | all =>
    cases hp
    exact .inl ⟨rfl, rfl⟩
  | point n =>
    obtain ⟨hn, rfl⟩ := between?_eq_some_iff.mp hp
    obtain ⟨hn', -⟩ := between?_eq_some_iff.mp hq
    exact .inr (by omega)
  | range a b =>
    obtain ⟨hab, rfl⟩ := between?_eq_some_iff.mp hp
    obtain ⟨hab', -⟩ := between?_eq_some_iff.mp hq
    exact .inr (by omega)
  | named a b => cases hp

/-- The steps of an item of hours are among those of the item as one of minutes. -/
theorem steps?_hour_minute {i : Item} {st st' : Steps} (h : i.steps? .hour = some st)
    (h' : i.steps? .minute = some st') :
    st.first = st'.first ∧ st.step = st'.step ∧ st.last ≤ st'.last := by
  -- an item is a stretch, a stretch with a step, or a word, which has no hours
  cases i with
  | plain sp =>
    obtain ⟨p, hp, h⟩ := Option.bind_eq_some_iff.mp h
    obtain ⟨q, hq, h'⟩ := Option.bind_eq_some_iff.mp h'
    obtain rfl := Option.some.inj h
    obtain rfl := Option.some.inj h'
    obtain ⟨hfirst, hlast⟩ := bounds?_hour_minute hp hq
    exact ⟨hfirst, rfl, hlast⟩
  | stepped sp k =>
    obtain ⟨-, h⟩ := Option.ite_none_right_eq_some.mp h
    obtain ⟨-, h'⟩ := Option.ite_none_right_eq_some.mp h'
    obtain ⟨p, hp, h⟩ := Option.bind_eq_some_iff.mp h
    obtain ⟨q, hq, h'⟩ := Option.bind_eq_some_iff.mp h'
    obtain ⟨hfirst, hlast⟩ := bounds?_hour_minute hp hq
    -- a step from a single number goes on to the end of the range
    cases sp with
    | point n =>
      obtain rfl := Option.some.inj h
      obtain rfl := Option.some.inj h'
      have hlast : Unit.hour.greatest ≤ Unit.minute.greatest := by decide
      exact ⟨hfirst, rfl, hlast⟩
    | _ =>
      obtain rfl := Option.some.inj h
      obtain rfl := Option.some.inj h'
      exact ⟨hfirst, rfl, hlast⟩
  | word w => cases h

/-- An item of hours that is one of days of the month holds an hour from 1 on. -/
theorem exists_hour {i : Item} {st st' : Steps} (h : i.steps? .hour = some st)
    (h' : i.steps? .dayOfMonth = some st') : ∃ n, 1 ≤ n ∧ n ≤ 23 ∧ st.holds n = true := by
  have hfirst {st : Steps} (hle : st.first ≤ st.last) : st.holds st.first = true := by
    simp [Steps.holds, hle]
  cases i with
  | plain sp =>
    obtain ⟨p, hp, h⟩ := Option.bind_eq_some_iff.mp h
    obtain ⟨q, hq, -⟩ := Option.bind_eq_some_iff.mp h'
    obtain rfl := Option.some.inj h
    -- the first number is 1 or more, or the stretch is that of all numbers
    rcases bounds?_hour_dayOfMonth hp hq with ⟨rfl, -⟩ | ⟨hpos, hle, hlast⟩
    · exact ⟨1, by decide⟩
    · exact ⟨p.1, hpos, le_trans hle hlast, hfirst hle⟩
  | stepped sp k =>
    obtain ⟨⟨hpos, hgreatest⟩, h⟩ := Option.ite_none_right_eq_some.mp h
    obtain ⟨-, h'⟩ := Option.ite_none_right_eq_some.mp h'
    obtain ⟨p, hp, h⟩ := Option.bind_eq_some_iff.mp h
    obtain ⟨q, hq, -⟩ := Option.bind_eq_some_iff.mp h'
    rcases bounds?_hour_dayOfMonth hp hq with ⟨rfl, rfl⟩ | ⟨hpos', hle, hlast⟩
    · obtain rfl := Option.some.inj h
      have hle : k ≤ 23 := hgreatest
      exact ⟨k, hpos, hle, by simp [Steps.holds, hle]⟩
    · refine ⟨p.1, hpos', le_trans hle hlast, ?_⟩
      cases sp with
      | point n =>
        obtain rfl := Option.some.inj h
        exact hfirst (le_trans hle hlast)
      | _ =>
        obtain rfl := Option.some.inj h
        exact hfirst hle
  | word w => cases h

/-- The hours of a field are among its minutes. -/
theorem minutes_of_hours {is : List Item} {hours minutes : List Nat}
    (hh : ordinals? .hour is = some hours) (hm : ordinals? .minute is = some minutes) :
    hours ⊆ minutes := by
  intro n hn
  obtain ⟨hrange, i, hi, st, hst, hholds⟩ := (mem_ordinals?_iff hh).mp hn
  obtain ⟨st', hst'⟩ := exists_steps hm hi
  obtain ⟨hfirst, hstep, hlast⟩ := steps?_hour_minute hst hst'
  refine (mem_ordinals?_iff hm).mpr ⟨?_, i, hi, st', hst', ?_⟩
  · have hle := (mem_range_iff.mp hrange).2
    refine mem_range_iff.mpr ⟨Nat.zero_le n, le_trans hle ?_⟩
    decide
  · simp only [Steps.holds, Bool.and_eq_true, decide_eq_true_eq, beq_iff_eq] at hholds ⊢
    rw [← hfirst, ← hstep]
    exact ⟨⟨hholds.1.1, le_trans hholds.1.2 hlast⟩, hholds.2⟩

/-- A field of hours that is one of days of the month has an hour from 1 on. -/
theorem exists_mem_hours {is : List Item} {hours days : List Nat} (hne : is ≠ [])
    (hh : ordinals? .hour is = some hours) (hd : ordinals? .dayOfMonth is = some days) :
    ∃ n ∈ hours, 1 ≤ n := by
  obtain ⟨i, is, rfl⟩ := List.exists_cons_of_ne_nil hne
  obtain ⟨st, hst⟩ := exists_steps hh List.mem_cons_self
  obtain ⟨st', hst'⟩ := exists_steps hd List.mem_cons_self
  obtain ⟨n, hpos, hle, hholds⟩ := exists_hour hst hst'
  exact ⟨n, (mem_ordinals?_iff hh).mpr
    ⟨mem_range_iff.mpr ⟨Nat.zero_le n, hle⟩, i, List.mem_cons_self, st, hst, hholds⟩, hpos⟩

/-- No six fields denote the same numbers one unit further, behind a seconds field of zero: the hours
would be 0 alone, and there is no day 0. -/
theorem Denotes.not_shifted {iss : List (List Item)}
    {minutes hours daysOfMonth months daysOfWeek years : List Nat}
    (h : Denotes Unit.six iss [[0], minutes, hours, daysOfMonth, months, daysOfWeek])
    (hshifted : Denotes (Unit.five ++ [.year]) iss
      [minutes, hours, daysOfMonth, months, daysOfWeek, years]) : False := by
  unfold Unit.six Unit.five at h
  unfold Unit.five at hshifted
  cases h with | cons _ hsecond h =>
  cases h with | cons _ hminute h =>
  cases h with | cons hne hhour _ =>
  cases hshifted with | cons _ hminute' hshifted =>
  cases hshifted with | cons _ hhour' hshifted =>
  cases hshifted with | cons _ hday _ =>
  obtain ⟨n, hn, hpos⟩ := exists_mem_hours hne hhour hday
  have hmem := minutes_of_hours hhour' hminute hn
  rw [ordinals?_second, hminute'] at hsecond
  rw [Option.some.inj hsecond, List.mem_singleton] at hmem
  omega

namespace Schedule

variable {numbers : Unit → List Nat} {expr : String} {s : Schedule}

/-! ### Reading expressions -/

/-- What six or seven fields are read as is read as six or seven fields. -/
theorem exists_of_ofFields? {cs : List Char} (h : ofFields? cs = some s) :
    ∃ us nss, (us = Unit.six ∨ us = Unit.seven) ∧ fields us cs = some (nss, []) := by
  rcases ofFields?_eq_some_iff.mp h with ⟨hsix, -⟩ | hseven
  · exact ⟨_, _, .inl rfl, hsix⟩
  · exact ⟨_, _, .inr rfl, hseven⟩

/-- Five fields are not six or seven. -/
theorem ofFields?_of_five {cs : List Char} {nss : List (List Nat)}
    (h : fields Unit.five cs = some (nss, [])) : ofFields? cs = none := by
  refine Option.eq_none_iff_forall_ne_some.mpr fun s hs => ?_
  obtain ⟨us, mss, hus, hfields⟩ := exists_of_ofFields? hs
  have hlength := length_unique h hfields
  rcases hus with rfl | rfl <;> cases hlength

/-- Five fields are accepted just if they are five words, and then are the schedule of their
minutes. -/
theorem parse_of_five
    (h : fields Unit.five (Text.trim expr).toList = some (Unit.five.map numbers, [])) :
    parse expr = if (Text.words expr).length = 5 then .ok (onMinutes numbers)
      else .error .malformed := by
  obtain ⟨c, cs, htrim, hbegins⟩ := exists_of_fields h
  rw [parse_eq htrim hbegins, widened]
  split
  · have hread : ofFields? ('0' :: ' ' :: (Text.trim expr).toList) = some (onMinutes numbers) :=
      ofFields?_eq_some_iff.mpr (.inl ⟨(fields_zero htrim hbegins).mpr ⟨_, h, rfl⟩, rfl⟩)
    rw [hread]
    rfl
  · rw [ofFields?_of_five h]
    rfl

/-- Behind a seconds field of zero, six or seven fields are not the schedule that they are alone. -/
theorem ofFields?_zero_ne {c : Char} {cs : List Char} (htrim : (Text.trim expr).toList = c :: cs)
    (hbegins : begins c = true) (h : ofFields? (Text.trim expr).toList = some s) :
    ofFields? ('0' :: ' ' :: (Text.trim expr).toList) ≠ some s := by
  intro hzero
  rcases ofFields?_eq_some_iff.mp hzero with ⟨hsix, -⟩ | hseven
  · -- behind the seconds there would be just five fields
    obtain ⟨mss, hfive, -⟩ := (fields_zero htrim hbegins).mp hsix
    rw [ofFields?_of_five hfive] at h
    cases h
  · have hsplit : Unit.seven = .second :: (Unit.five ++ [.year]) := rfl
    rw [hsplit] at hseven
    obtain ⟨mss, hshifted, heq⟩ := (fields_zero htrim hbegins).mp hseven
    obtain ⟨hseconds, rfl⟩ := List.cons.inj heq
    rcases ofFields?_eq_some_iff.mp h with ⟨hsix, -⟩ | hseven
    · obtain ⟨iss, hiss, hiss'⟩ := exists_denotes hsix hshifted
      rw [hseconds] at hiss
      exact hiss.not_shifted hiss'
    · cases length_unique hseven hshifted

/-- Six or seven fields are read as these just if they are not five words. -/
theorem parse_of_ofFields? (h : ofFields? (Text.trim expr).toList = some s) :
    parse expr = .ok s ↔ (Text.words expr).length ≠ 5 := by
  obtain ⟨us, nss, hus, hfields⟩ := exists_of_ofFields? h
  obtain ⟨c, cs, htrim, hbegins⟩ :
      ∃ c cs, (Text.trim expr).toList = c :: cs ∧ begins c = true := by
    rcases hus with rfl | rfl
    · exact exists_of_fields hfields
    · exact exists_of_fields hfields
  rw [parse_eq_ok_iff htrim hbegins, widened]
  split
  · rename_i hfive
    exact ⟨fun hzero => absurd hzero (ofFields?_zero_ne htrim hbegins h),
      fun hne => absurd hfive hne⟩
  · rename_i hfive
    exact ⟨fun _ => hfive, fun _ => h⟩

/-- Words that are a field each are read as these fields. -/
theorem fields_trim_of_words {us : List Unit}
    (h : List.Forall₂ (fun u w => IsField numbers u w.toList) us (Text.words expr))
    (hblanks : ∀ c ∈ expr.toList, Text.isBlank c = true → isBlank c = true) :
    fields us (Text.trim expr).toList = some (us.map numbers, []) := by
  rw [← skipBlanks_trim]
  refine fields_of_words (forall₂_words.mp h) fun c hc => hblanks c ?_
  obtain ⟨as, bs, hexpr, -, -⟩ := Text.exists_trimChars expr.toList
  rw [Text.trim, String.toList_ofList] at hc
  rw [hexpr]
  exact List.mem_append_right _ (List.mem_append_left _ hc)

/-- How an expression is read by its fields and its words.

* `five`: five fields with given numbers are accepted, as the schedule of their minutes, just if
  they are five words.
* `more`: six or seven fields are read as these just if they are not five words.
* `apart`: five fields are not six or seven.
* `words`: words that are a field each, with blanks of the grammar between them, are read as these
  fields: five behind the second 0, six as they stand, with all years, and seven as they stand. -/
structure Widening (expr : String) : Prop where
  five : ∀ numbers : Unit → List Nat,
    fields Unit.five (Text.trim expr).toList = some (Unit.five.map numbers, []) →
      parse expr = if (Text.words expr).length = 5 then .ok (onMinutes numbers)
        else .error .malformed
  more : ∀ s, ofFields? (Text.trim expr).toList = some s →
    (parse expr = .ok s ↔ (Text.words expr).length ≠ 5)
  apart : ∀ nss, fields Unit.five (Text.trim expr).toList = some (nss, []) →
    ofFields? (Text.trim expr).toList = none
  words : ∀ numbers : Unit → List Nat,
    (∀ c ∈ expr.toList, Text.isBlank c = true → isBlank c = true) →
      (List.Forall₂ (fun u w => IsField numbers u w.toList) Unit.five (Text.words expr) →
        parse expr = .ok (onMinutes numbers)) ∧
      (List.Forall₂ (fun u w => IsField numbers u w.toList) Unit.six (Text.words expr) →
        parse expr = .ok { onMinutes numbers with seconds := numbers .second }) ∧
      (List.Forall₂ (fun u w => IsField numbers u w.toList) Unit.seven (Text.words expr) →
        parse expr = .ok { onMinutes numbers with
          seconds := numbers .second
          years := numbers .year })

/-- An expression is widened by the number of its words, which need not be that of its fields. -/
theorem widening (expr : String) : Widening expr where
  five numbers h := parse_of_five h
  more s h := parse_of_ofFields? h
  apart nss h := ofFields?_of_five h
  words numbers hblanks := by
    refine ⟨fun h => ?_, fun h => ?_, fun h => ?_⟩
    · have hlength : (Text.words expr).length = 5 := h.length_eq.symm
      rw [parse_of_five (fields_trim_of_words h hblanks), if_pos hlength]
    · refine (parse_of_ofFields? (ofFields?_eq_some_iff.mpr (.inl ⟨?_, rfl⟩))).mpr ?_
      · exact fields_trim_of_words h hblanks
      · rw [← h.length_eq]
        decide
    · refine (parse_of_ofFields? (ofFields?_eq_some_iff.mpr (.inr ?_))).mpr ?_
      · exact fields_trim_of_words h hblanks
      · rw [← h.length_eq]
        decide

/-- With a blank behind a comma, five fields are six words, and refused; with no blank between two of
them, six fields are five words, and read as others. -/
theorem widening_of_blanks :
    let numbers : Unit → List Nat := fun u =>
      if u = .minute then [0] else if u = .hour then [1, 2] else u.range
    let everySecond : Schedule := { onMinutes Unit.range with seconds := Unit.second.range }
    fields Unit.five "0 1, 2 * * *".toList = some (Unit.five.map numbers, []) ∧
      parse "0 1, 2 * * *" = .error .malformed ∧
      ofFields? "* * * * **".toList = some everySecond ∧ parse "* * * * **" ≠ .ok everySecond := by
  intro numbers everySecond
  have htrim : Text.trim "0 1, 2 * * *" = "0 1, 2 * * *" := by decide +kernel
  have htrim' : Text.trim "* * * * **" = "* * * * **" := by decide +kernel
  have hfive : fields Unit.five "0 1, 2 * * *".toList = some (Unit.five.map numbers, []) := by
    decide +kernel
  have hsix : ofFields? "* * * * **".toList = some everySecond := by decide +kernel
  refine ⟨hfive, ?_, hsix, ?_⟩
  · have hread := (widening "0 1, 2 * * *").five numbers
    rw [htrim] at hread
    exact (hread hfive).trans (by decide +kernel)
  · have hread := (widening "* * * * **").more everySecond
    rw [htrim'] at hread
    exact fun hparse => (hread hsix).mp hparse (by decide +kernel)

end Schedule

end Courier.Cron

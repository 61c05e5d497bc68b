import Courier.Cron.Schedule
import Courier.Proofs.Cron.Texts
import Courier.Proofs.Text.Words
import Mathlib.Data.List.Forall2

/-!
Fields one behind the other.

`fields us` reads one field of each unit, and a schedule is read as six or as seven of them
(`Schedule.ofFields?_eq_some_iff`).  Whatever the units are, a text that is read to its end has the
same items (`exists_denotes`), and so as many fields: units differ only in whether they may be left
open, and where one of them stops early a comma is left, with which no field begins.

Words are what stands between blanks, and there are more blanks than the grammar knows.  So a text
of words that are fields may still fail to be read, but what is read of it is known: a field that
has been read begins where the word begins (`field_of_word`), since in front of it are blanks of the
grammar only (`front_of_words`).

An expression is trimmed, widened if it has five words, and then read; `parse_eq` says so for all
expressions that begin as a field does, and in `fields_zero` the seconds field in front is read.

Main statements: when every word of a text is by itself the field of its unit, the fields that are
read are those (`numbers_of_words`), and they are read if all blanks are those of the grammar
(`fields_of_words`).
-/

namespace Courier.Cron

/-- Reads one field of each unit, one behind the other. -/
def fields : List Unit → Reader (List (List Nat))
  | [], cs => some ([], cs)
  | u :: us, cs => do
    let (ns, cs) ← field u cs
    let (nss, cs) ← fields us cs
    return (ns :: nss, cs)

/-- The units of an expression of five fields. -/
def Unit.five : List Unit := [.minute, .hour, .dayOfMonth, .month, .dayOfWeek]

/-- The units of an expression of six fields. -/
def Unit.six : List Unit := .second :: five

/-- The units of an expression of seven fields. -/
def Unit.seven : List Unit := six ++ [.year]

theorem fields_cons_iff {u : Unit} {us : List Unit} {cs rest : List Char} {nss : List (List Nat)} :
    fields (u :: us) cs = some (nss, rest) ↔
      ∃ ns mss cs', field u cs = some (ns, cs') ∧ fields us cs' = some (mss, rest) ∧
        nss = ns :: mss := by
  simp only [fields, Option.bind_eq_bind, Option.bind_eq_some_iff, Prod.exists]
  constructor
  · rintro ⟨ns, cs', hns, mss, rest', hmss, h⟩
    obtain ⟨rfl, rfl⟩ := Prod.mk.inj (Option.some.inj h)
    exact ⟨ns, mss, cs', hns, hmss, rfl⟩
  · rintro ⟨ns, mss, cs', hns, hmss, rfl⟩
    exact ⟨ns, cs', hns, mss, rest, hmss, rfl⟩

theorem fields_nil_iff {cs rest : List Char} {nss : List (List Nat)} :
    fields [] cs = some (nss, rest) ↔ nss = [] ∧ rest = cs := by
  simp only [fields, Option.some.injEq, Prod.mk.injEq]
  exact ⟨fun h => ⟨h.1.symm, h.2.symm⟩, fun h => ⟨h.1.symm, h.2.symm⟩⟩

theorem fields_append_iff {us vs : List Unit} {cs rest : List Char} {nss : List (List Nat)} :
    fields (us ++ vs) cs = some (nss, rest) ↔
      ∃ mss mss' cs', fields us cs = some (mss, cs') ∧ fields vs cs' = some (mss', rest) ∧
        nss = mss ++ mss' := by
  induction us generalizing cs nss with
  | nil =>
    constructor
    · intro h
      exact ⟨[], nss, cs, rfl, h, rfl⟩
    · rintro ⟨mss, mss', cs', hmss, h, rfl⟩
      obtain ⟨rfl, rfl⟩ := fields_nil_iff.mp hmss
      exact h
  | cons u us ih =>
    rw [List.cons_append, fields_cons_iff]
    constructor
    · rintro ⟨ns, mss, cs₁, hns, hmss, rfl⟩
      obtain ⟨mss, mss', cs₂, hus, hvs, rfl⟩ := ih.mp hmss
      exact ⟨ns :: mss, mss', cs₂, fields_cons_iff.mpr ⟨_, _, _, hns, hus, rfl⟩, hvs, rfl⟩
    · rintro ⟨mss, mss', cs₂, hmss, hvs, rfl⟩
      obtain ⟨ns, mss, cs₁, hns, hus, rfl⟩ := fields_cons_iff.mp hmss
      exact ⟨ns, mss ++ mss', cs₁, hns, ih.mpr ⟨_, _, _, hus, hvs, rfl⟩, rfl⟩

theorem field_nil (u : Unit) : field u [] = none := by
  refine Option.eq_none_iff_forall_ne_some.mpr fun r h => ?_
  obtain ⟨ns, rest⟩ := r
  obtain ⟨c, ds, hnil, -⟩ := begins_of_field h
  cases hnil

/-- Blanks in front of a field are of no account. -/
theorem field_skipBlanks (u : Unit) (cs : List Char) : field u (skipBlanks cs) = field u cs := by
  simp only [field, items, skipBlanks_skipBlanks]

/-! ### Six or seven fields -/

/-- Six fields are read one behind the other. -/
theorem fields_six_iff {cs rest : List Char} {nss : List (List Nat)} :
    fields Unit.six cs = some (nss, rest) ↔
      ∃ ns₁ cs₁, field .second cs = some (ns₁, cs₁) ∧
      ∃ ns₂ cs₂, field .minute cs₁ = some (ns₂, cs₂) ∧
      ∃ ns₃ cs₃, field .hour cs₂ = some (ns₃, cs₃) ∧
      ∃ ns₄ cs₄, field .dayOfMonth cs₃ = some (ns₄, cs₄) ∧
      ∃ ns₅ cs₅, field .month cs₄ = some (ns₅, cs₅) ∧
      ∃ ns₆, field .dayOfWeek cs₅ = some (ns₆, rest) ∧ nss = [ns₁, ns₂, ns₃, ns₄, ns₅, ns₆] := by
  constructor
  · intro h
    obtain ⟨ns₁, _, cs₁, h₁, hfive, rfl⟩ := fields_cons_iff.mp h
    obtain ⟨ns₂, _, cs₂, h₂, hfour, rfl⟩ := fields_cons_iff.mp hfive
    obtain ⟨ns₃, _, cs₃, h₃, hthree, rfl⟩ := fields_cons_iff.mp hfour
    obtain ⟨ns₄, _, cs₄, h₄, htwo, rfl⟩ := fields_cons_iff.mp hthree
    obtain ⟨ns₅, _, cs₅, h₅, hone, rfl⟩ := fields_cons_iff.mp htwo
    obtain ⟨ns₆, _, cs₆, h₆, hnone, rfl⟩ := fields_cons_iff.mp hone
    obtain ⟨rfl, rfl⟩ := fields_nil_iff.mp hnone
    exact ⟨ns₁, cs₁, h₁, ns₂, cs₂, h₂, ns₃, cs₃, h₃, ns₄, cs₄, h₄, ns₅, cs₅, h₅, ns₆, h₆, rfl⟩
  · rintro ⟨ns₁, cs₁, h₁, ns₂, cs₂, h₂, ns₃, cs₃, h₃, ns₄, cs₄, h₄, ns₅, cs₅, h₅, ns₆, h₆, rfl⟩
    simp only [Unit.six, Unit.five, fields, h₁, h₂, h₃, h₄, h₅, h₆, Option.bind_eq_bind,
      Option.bind_some]
    rfl

/-- A schedule is read from six fields, and then has all years, or from seven. -/
theorem Schedule.ofFields?_eq_some_iff {cs : List Char} {s : Schedule} :
    ofFields? cs = some s ↔
      (fields Unit.six cs = some ([s.seconds, s.minutes, s.hours, s.daysOfMonth, s.months,
        s.daysOfWeek], []) ∧ s.years = Unit.year.range) ∨
      fields Unit.seven cs = some ([s.seconds, s.minutes, s.hours, s.daysOfMonth, s.months,
        s.daysOfWeek, s.years], []) := by
  constructor
  · intro h
    unfold ofFields? at h
    obtain ⟨⟨ns₁, cs₁⟩, h₁, h⟩ := Option.bind_eq_some_iff.mp h
    obtain ⟨⟨ns₂, cs₂⟩, h₂, h⟩ := Option.bind_eq_some_iff.mp h
    obtain ⟨⟨ns₃, cs₃⟩, h₃, h⟩ := Option.bind_eq_some_iff.mp h
    obtain ⟨⟨ns₄, cs₄⟩, h₄, h⟩ := Option.bind_eq_some_iff.mp h
    obtain ⟨⟨ns₅, cs₅⟩, h₅, h⟩ := Option.bind_eq_some_iff.mp h
    obtain ⟨⟨ns₆, cs₆⟩, h₆, h⟩ := Option.bind_eq_some_iff.mp h
    have hsix : fields Unit.six cs = some ([ns₁, ns₂, ns₃, ns₄, ns₅, ns₆], cs₆) :=
      fields_six_iff.mpr ⟨ns₁, cs₁, h₁, ns₂, cs₂, h₂, ns₃, cs₃, h₃, ns₄, cs₄, h₄, ns₅, cs₅, h₅, ns₆,
        h₆, rfl⟩
    -- a seventh field is tried; whether it is there or not, the text has to be at its end
    dsimp only at h
    split at h
    · rename_i hempty
      obtain rfl := Option.some.inj h
      cases hyear : field .year cs₆ with
      | none =>
        rw [hyear] at hempty
        obtain rfl : cs₆ = [] := List.isEmpty_iff.mp hempty
        exact .inl ⟨hsix, rfl⟩
      | some r =>
        obtain ⟨ns₇, cs₇⟩ := r
        rw [hyear] at hempty
        obtain rfl : cs₇ = [] := List.isEmpty_iff.mp hempty
        have hyears : fields [.year] cs₆ = some ([ns₇], []) :=
          fields_cons_iff.mpr ⟨_, _, _, hyear, rfl, rfl⟩
        exact .inr (fields_append_iff.mpr ⟨_, _, _, hsix, hyears, rfl⟩)
    · cases h
  · obtain ⟨seconds, minutes, hours, daysOfMonth, months, daysOfWeek, years⟩ := s
    -- six fields leave nothing for a seventh, and seven end with it
    rintro (⟨hsix, rfl⟩ | hseven)
    · obtain ⟨_, _, h₁, _, _, h₂, _, _, h₃, _, _, h₄, _, _, h₅, _, h₆, heq⟩ :=
        fields_six_iff.mp hsix
      cases heq
      simp [ofFields?, h₁, h₂, h₃, h₄, h₅, h₆, field_nil]
    · obtain ⟨_, _, cs₆, hsix, hyears, heq⟩ := fields_append_iff.mp hseven
      obtain ⟨_, _, h₁, _, _, h₂, _, _, h₃, _, _, h₄, _, _, h₅, _, h₆, rfl⟩ :=
        fields_six_iff.mp hsix
      obtain ⟨_, _, _, h₇, hend, rfl⟩ := fields_cons_iff.mp hyears
      obtain ⟨rfl, rfl⟩ := fields_nil_iff.mp hend
      cases heq
      simp [ofFields?, h₁, h₂, h₃, h₄, h₅, h₆, h₇]

/-! ### The items do not depend on the unit -/

/-- Where there is no question mark, or both units may be left open, a stretch is the same. -/
theorem span_congr {u v : Unit} {cs : List Char}
    (h : u.mayBeOpen = v.mayBeOpen ∨ cs.head? ≠ some '?') : span u cs = span v cs := by
  rcases h with h | h
  · simp only [span, h]
  · simp only [span, char_eq_none h, Option.map_none, ite_self]

theorem item_congr {u v : Unit} {cs : List Char}
    (h : u.mayBeOpen = v.mayBeOpen ∨ cs.head? ≠ some '?') : item u cs = item v cs := by
  simp only [item, stepped, span_congr h]

theorem item_question {u : Unit} (h : u.mayBeOpen = false) (cs : List Char) :
    item u ('?' :: cs) = none := by
  have hskip : skipBlanks ('?' :: cs) = '?' :: cs := skipBlanks_cons (by decide) cs
  have hnumber : number ('?' :: cs) = none := by
    refine number_eq_none ?_
    rw [hskip]
    exact List.takeWhile_cons_of_neg (by decide)
  have hname : name ('?' :: cs) = none := by
    refine name_eq_none ?_
    rw [hskip]
    exact List.takeWhile_cons_of_neg (by decide)
  have hspan : span u ('?' :: cs) = none := by simp [span, h, dashed, hnumber, hname, char]
  simp [item, stepped, hspan, hname]

/-- What two units both read as an item is the same item. -/
theorem item_unique {u v : Unit} {cs : List Char} {a b : Item × List Char}
    (hu : item u cs = some a) (hv : item v cs = some b) : a = b := by
  have hopen {w : Unit} {c : Item × List Char} (hw : item w cs = some c) :
      w.mayBeOpen = true ∨ cs.head? ≠ some '?' := by
    by_contra hnot
    rw [not_or, Bool.not_eq_true, not_not] at hnot
    obtain ⟨rest, rfl⟩ := List.head?_eq_some_iff.mp hnot.2
    rw [item_question hnot.1] at hw
    cases hw
  have hsame : u.mayBeOpen = v.mayBeOpen ∨ cs.head? ≠ some '?' := by
    rcases hopen hu with hou | hhead
    · rcases hopen hv with hov | hhead
      · exact .inl (hou.trans hov.symm)
      · exact .inr hhead
    · exact .inr hhead
  rw [item_congr hsame, hv] at hu
  exact (Option.some.inj hu).symm

/-- Further items are the same for two units, unless one of them stops at a comma. -/
theorem moreItems_unique {u v : Unit} {n : Nat} {cs : List Char}
    (hu : (moreItems u n cs).2.head? ≠ some ',') (hv : (moreItems v n cs).2.head? ≠ some ',') :
    moreItems u n cs = moreItems v n cs := by
  -- by induction on how many items are tried
  induction n generalizing cs with
  | zero => rfl
  | succ n ih =>
    by_cases hhead : cs.head? = some ','
    · obtain ⟨cs, rfl⟩ := List.head?_eq_some_iff.mp hhead
      simp only [moreItems, char_self, Option.bind_some] at hu hv ⊢
      cases hiu : item u cs with
      | none =>
        rw [hiu] at hu
        exact absurd rfl hu
      | some a =>
        cases hiv : item v cs with
        | none =>
          rw [hiv] at hv
          exact absurd rfl hv
        | some b =>
          obtain rfl := item_unique hiu hiv
          rw [hiu] at hu
          rw [hiv] at hv
          simp only [ih hu hv]
    · simp only [moreItems, char_eq_none hhead, Option.bind_none]

/-- What two units read as the items of a field is the same, unless one of them stops at a comma. -/
theorem items_unique {u v : Unit} {cs : List Char} {a b : List Item × List Char}
    (hu : items u cs = some a) (hv : items v cs = some b) (ha : a.2.head? ≠ some ',')
    (hb : b.2.head? ≠ some ',') : a = b := by
  have hcomma {rest : List Char} (h : (skipBlanks rest).head? ≠ some ',') :
      rest.head? ≠ some ',' := by
    intro hhead
    obtain ⟨cs, rfl⟩ := List.head?_eq_some_iff.mp hhead
    rw [skipBlanks_cons (by decide)] at h
    exact h rfl
  unfold items at hu hv
  obtain ⟨⟨i, cs₁⟩, hiu, hu⟩ := Option.bind_eq_some_iff.mp hu
  obtain ⟨⟨j, cs₂⟩, hiv, hv⟩ := Option.bind_eq_some_iff.mp hv
  obtain ⟨rfl, rfl⟩ := Prod.mk.inj (item_unique hiu hiv)
  obtain rfl := Option.some.inj hu
  obtain rfl := Option.some.inj hv
  have hsame := moreItems_unique (hcomma ha) (hcomma hb)
  simp only [hsame]

/-- The numbers that fields denote, by their units and items. -/
inductive Denotes : List Unit → List (List Item) → List (List Nat) → Prop
  | nil : Denotes [] [] []
  | cons {u : Unit} {us : List Unit} {is : List Item} {iss : List (List Item)} {ns : List Nat}
      {nss : List (List Nat)} (hne : is ≠ []) (h : ordinals? u is = some ns)
      (hs : Denotes us iss nss) : Denotes (u :: us) (is :: iss) (ns :: nss)

theorem Denotes.length_eq {us : List Unit} {iss : List (List Item)} {nss : List (List Nat)}
    (h : Denotes us iss nss) : us.length = iss.length := by
  induction h with
  | nil => rfl
  | cons _ _ _ ih => exact congrArg (· + 1) ih

theorem exists_items_of_field {u : Unit} {cs rest : List Char} {ns : List Nat}
    (h : field u cs = some (ns, rest)) :
    ∃ is, is ≠ [] ∧ items u cs = some (is, rest) ∧ ordinals? u is = some ns := by
  unfold field at h
  obtain ⟨⟨is, cs₁⟩, his, h⟩ := Option.bind_eq_some_iff.mp h
  obtain ⟨ns', hns, h⟩ := Option.bind_eq_some_iff.mp h
  obtain ⟨rfl, rfl⟩ := Prod.mk.inj (Option.some.inj h)
  obtain ⟨t, -, i, js, -, -, -, -, rfl, -⟩ := exists_of_items his
  exact ⟨i :: js, List.cons_ne_nil _ _, his, hns⟩

/-- Fields that are read to the end of a text do not begin with a comma. -/
theorem head_ne_comma {us : List Unit} {cs : List Char} {nss : List (List Nat)}
    (h : fields us cs = some (nss, [])) : cs.head? ≠ some ',' := by
  intro hhead
  obtain ⟨rest, rfl⟩ := List.head?_eq_some_iff.mp hhead
  cases us with
  | nil => cases (fields_nil_iff.mp h).2
  | cons u us =>
    obtain ⟨ns, mss, cs', hns, -, -⟩ := fields_cons_iff.mp h
    obtain ⟨c, ds, hskip, hbegins⟩ := begins_of_field hns
    rw [skipBlanks_cons (by decide)] at hskip
    obtain ⟨rfl, -⟩ := List.cons.inj hskip
    cases hbegins

/-- A text that is read to its end as fields of some units and as fields of others has the same
items for both. -/
theorem exists_denotes {us vs : List Unit} {cs : List Char} {nss mss : List (List Nat)}
    (hu : fields us cs = some (nss, [])) (hv : fields vs cs = some (mss, [])) :
    ∃ iss, Denotes us iss nss ∧ Denotes vs iss mss := by
  -- along the units; what is left behind a field begins another one or is the end, never a comma
  induction us generalizing vs cs nss mss with
  | nil =>
    obtain ⟨rfl, rfl⟩ := fields_nil_iff.mp hu
    cases vs with
    | nil =>
      obtain ⟨rfl, -⟩ := fields_nil_iff.mp hv
      exact ⟨[], .nil, .nil⟩
    | cons v vs =>
      obtain ⟨ns, -, cs', hns, -⟩ := fields_cons_iff.mp hv
      rw [field_nil] at hns
      cases hns
  | cons u us ih =>
    obtain ⟨ns, nss, cs₁, hns, hnss, rfl⟩ := fields_cons_iff.mp hu
    cases vs with
    | nil =>
      obtain ⟨-, rfl⟩ := fields_nil_iff.mp hv
      rw [field_nil] at hns
      cases hns
    | cons v vs =>
      obtain ⟨ms, mss, cs₂, hms, hmss, rfl⟩ := fields_cons_iff.mp hv
      obtain ⟨is, hne, his, hord⟩ := exists_items_of_field hns
      obtain ⟨js, -, hjs, hord'⟩ := exists_items_of_field hms
      obtain ⟨rfl, rfl⟩ :=
        Prod.mk.inj (items_unique his hjs (head_ne_comma hnss) (head_ne_comma hmss))
      obtain ⟨iss, hiss, hiss'⟩ := ih hnss hmss
      exact ⟨is :: iss, .cons hne hord hiss, .cons hne hord' hiss'⟩

/-- A text is not read to its end as two different numbers of fields. -/
theorem length_unique {us vs : List Unit} {cs : List Char} {nss mss : List (List Nat)}
    (hu : fields us cs = some (nss, [])) (hv : fields vs cs = some (mss, [])) :
    us.length = vs.length := by
  obtain ⟨iss, hiss, hiss'⟩ := exists_denotes hu hv
  exact hiss.length_eq.trans hiss'.length_eq.symm

/-! ### Fields and words -/

/-- Whether a text is by itself the field of a unit with its numbers. -/
def IsField (numbers : Unit → List Nat) (u : Unit) (w : List Char) : Prop :=
  field u w = some (numbers u, [])

instance (numbers : Unit → List Nat) (u : Unit) (w : List Char) :
    Decidable (IsField numbers u w) :=
  inferInstanceAs (Decidable (field u w = some (numbers u, [])))

variable {numbers : Unit → List Nat}

theorem textBlank_of_isBlank {c : Char} (h : isBlank c = true) : Text.isBlank c = true := by
  simp only [isBlank, Bool.or_eq_true, decide_eq_true_eq] at h
  rcases h with ((rfl | rfl) | rfl) | rfl <;> decide

theorem isBlank_of_visible {c : Char} (h : Text.isBlank c = false) : isBlank c = false := by
  by_contra hc
  rw [textBlank_of_isBlank (by simpa using hc)] at h
  cases h

/-- No part of a field begins with a blank. -/
theorem visible_of_begins {c : Char} (h : begins c = true) : Text.isBlank c = false := by
  have hrange : 42 ≤ c.toNat ∧ c.toNat ≤ 122 := by
    simp only [begins, isDigit, isLetter, Bool.or_eq_true, Bool.and_eq_true, decide_eq_true_eq,
      Char.le_def, UInt32.le_iff_toNat_le] at h
    rcases h with ((rfl | rfl) | ⟨h₀, h₁⟩) | ⟨h₀, h₁⟩ | ⟨h₀, h₁⟩
    · decide
    · decide
    all_goals exact ⟨le_trans (by decide) h₀, le_trans h₁ (by decide)⟩
  simp [Text.isBlank]
  omega

theorem wordsFrom_skipBlanks (cs : List Char) :
    Text.wordsFrom [] (skipBlanks cs) = Text.wordsFrom [] cs := by
  obtain ⟨bs, hcs, hbs⟩ := exists_skipBlanks cs
  have hwords := Text.wordsFrom_blanks_append (fun c hc => textBlank_of_isBlank (hbs c hc))
    (skipBlanks cs)
  rw [← hwords, ← hcs]

/-- If no other blank stands in front, then all blanks in front are those of the grammar. -/
theorem blanks_of_front {bs cs : List Char} (hbs : Text.Blanks bs)
    (h : ∀ c ds, skipBlanks (bs ++ cs) = c :: ds → Text.isBlank c = false) : Blanks bs := by
  induction bs with
  | nil => simp [Blanks]
  | cons b bs ih =>
    obtain ⟨hb, hbs⟩ := List.forall_mem_cons.mp hbs
    by_cases hblank : isBlank b = true
    · rw [List.cons_append, skipBlanks, List.dropWhile_cons_of_pos hblank] at h
      exact List.forall_mem_cons.mpr ⟨hblank, ih hbs h⟩
    · have hfirst := h b (bs ++ cs) (skipBlanks_cons (by simpa using hblank) _)
      rw [hb] at hfirst
      cases hfirst

/-- A word that is a field begins as a field does. -/
theorem IsField.exists_cons {u : Unit} {w : List Char} (h : IsField numbers u w)
    (hvisible : ∀ c ∈ w, Text.isBlank c = false) : ∃ c w', w = c :: w' ∧ begins c = true := by
  obtain ⟨c, ds, hskip, hbegins⟩ := begins_of_field h
  cases w with
  | nil => cases hskip
  | cons d w' =>
    rw [skipBlanks_cons (isBlank_of_visible (hvisible d List.mem_cons_self))] at hskip
    obtain ⟨rfl, -⟩ := List.cons.inj hskip
    exact ⟨d, w', rfl, hbegins⟩

/-- Behind the blanks of the grammar stands another blank or the beginning of a field. -/
theorem front_of_words {us : List Unit} {cs : List Char}
    (h : List.Forall₂ (IsField numbers) us (Text.wordsFrom [] cs)) {c : Char} {ds : List Char}
    (hskip : skipBlanks cs = c :: ds) : Text.isBlank c = true ∨ begins c = true := by
  cases hwords : Text.wordsFrom [] cs with
  | nil =>
    obtain ⟨bs, hcs, -⟩ := exists_skipBlanks cs
    refine .inl (Text.blanks_of_wordsFrom hwords c ?_)
    rw [hcs, hskip]
    exact List.mem_append_right _ List.mem_cons_self
  | cons w ws =>
    rw [hwords] at h
    by_cases hc : Text.isBlank c = true
    · exact .inl hc
    -- otherwise there are only blanks of the grammar in front of the first word
    obtain ⟨u, us', hw, -, rfl⟩ := List.forall₂_cons_right_iff.mp h
    obtain ⟨bs, rest, rfl, hbs, hvisible, -, -⟩ := Text.exists_of_wordsFrom hwords
    obtain ⟨d, w', rfl, hbegins⟩ := hw.exists_cons hvisible
    have hfront : ∀ c' ds', skipBlanks (bs ++ (d :: w' ++ rest)) = c' :: ds' →
        Text.isBlank c' = false := by
      intro c' ds' hskip'
      obtain ⟨rfl, -⟩ := List.cons.inj (hskip.symm.trans hskip')
      simpa using hc
    have hblanks := blanks_of_front hbs hfront
    rw [skipBlanks_blanks_append hblanks, List.cons_append,
      skipBlanks_cons (isBlank_of_visible (visible_of_begins hbegins))] at hskip
    obtain ⟨rfl, -⟩ := List.cons.inj hskip
    exact .inr hbegins

/-- A word that is a field, with words that are fields behind it, is read as that field. -/
theorem field_of_word {u : Unit} {us : List Unit} {cs w : List Char} {ws : List (List Char)}
    (hwords : Text.wordsFrom [] cs = w :: ws) (hw : IsField numbers u w)
    (hws : List.Forall₂ (IsField numbers) us ws)
    (hfront : ∀ c ds, skipBlanks cs = c :: ds → Text.isBlank c = false) :
    ∃ rest, field u cs = some (numbers u, skipBlanks rest) ∧
      Text.wordsFrom [] (skipBlanks rest) = ws ∧ rest <:+ cs := by
  obtain ⟨bs, rest, rfl, hbs, hvisible, hbreaks, rfl⟩ := Text.exists_of_wordsFrom hwords
  -- behind the word there is a blank or the end, and then the next field, so no mark goes on with
  -- it
  have hends : Ends ['-', '/', ','] rest := by
    constructor
    · intro c hc
      have hnot : begins c = false := by
        by_contra hbegins
        have hblank := visible_of_begins (by simpa using hbegins)
        rw [hbreaks c hc] at hblank
        cases hblank
      simp only [begins, Bool.or_eq_false_iff] at hnot
      exact ⟨hnot.1.2, hnot.2⟩
    · intro c hc hmark
      obtain ⟨ds, hskip⟩ := List.head?_eq_some_iff.mp hc
      simp only [List.mem_cons, List.not_mem_nil, or_false] at hmark
      rcases front_of_words hws hskip with h | h <;>
        rcases hmark with rfl | rfl | rfl <;> cases h
  refine ⟨rest, ?_, wordsFrom_skipBlanks rest, ?_⟩
  · rw [← field_skipBlanks, skipBlanks_blanks_append (blanks_of_front hbs hfront),
      field_skipBlanks, field_append hw hends]
  · rw [← List.append_assoc]
    exact List.suffix_append _ _

/-- When every word is by itself the field of its unit, then the fields that are read are those. -/
theorem numbers_of_words {us : List Unit} {cs rest : List Char} {nss : List (List Nat)}
    (h : List.Forall₂ (IsField numbers) us (Text.wordsFrom [] cs))
    (hread : fields us cs = some (nss, rest)) :
    nss = us.map numbers ∧ Text.wordsFrom [] rest = [] := by
  -- along the units; the first word is the first field
  induction us generalizing cs nss with
  | nil =>
    obtain ⟨rfl, rfl⟩ := fields_nil_iff.mp hread
    exact ⟨rfl, List.forall₂_nil_left_iff.mp h⟩
  | cons u us ih =>
    obtain ⟨w, ws, hw, hws, hwords⟩ := List.forall₂_cons_left_iff.mp h
    obtain ⟨ns, mss, cs', hns, hmss, rfl⟩ := fields_cons_iff.mp hread
    -- a field has been read, so no other blank stands in front of it
    have hfront : ∀ c ds, skipBlanks cs = c :: ds → Text.isBlank c = false := by
      intro c ds hskip
      obtain ⟨d, ds', hskip', hbegins⟩ := begins_of_field hns
      obtain ⟨rfl, -⟩ := List.cons.inj (hskip.symm.trans hskip')
      exact visible_of_begins hbegins
    obtain ⟨rest', hfield, hrest, -⟩ := field_of_word hwords hw hws hfront
    rw [hfield] at hns
    obtain ⟨rfl, rfl⟩ := Prod.mk.inj (Option.some.inj hns)
    rw [← hrest] at hws
    obtain ⟨rfl, hend⟩ := ih hws hmss
    exact ⟨rfl, hend⟩

theorem front_of_blanks {cs : List Char}
    (h : ∀ c ∈ cs, Text.isBlank c = true → isBlank c = true) {c : Char} {ds : List Char}
    (hskip : skipBlanks cs = c :: ds) : Text.isBlank c = false := by
  by_contra hc
  have hmem : c ∈ cs := by
    obtain ⟨bs, hcs, -⟩ := exists_skipBlanks cs
    rw [hcs, hskip]
    exact List.mem_append_right _ List.mem_cons_self
  have hblank := h c hmem (by simpa using hc)
  rw [isBlank_of_skipBlanks hskip] at hblank
  cases hblank

/-- When every word is by itself the field of its unit, and all blanks are those of the grammar,
then these fields are read. -/
theorem fields_of_words {us : List Unit} {cs : List Char}
    (h : List.Forall₂ (IsField numbers) us (Text.wordsFrom [] cs))
    (hblanks : ∀ c ∈ cs, Text.isBlank c = true → isBlank c = true) :
    fields us (skipBlanks cs) = some (us.map numbers, []) := by
  -- along the units as before, but now the fields have to be found
  induction us generalizing cs with
  | nil =>
    have hwords := List.forall₂_nil_left_iff.mp h
    refine fields_nil_iff.mpr ⟨rfl, ?_⟩
    cases hskip : skipBlanks cs with
    | nil => rfl
    | cons c ds =>
      have hfirst := Text.blanks_of_wordsFrom ((wordsFrom_skipBlanks cs).trans hwords) c
        (hskip ▸ List.mem_cons_self)
      rw [front_of_blanks hblanks hskip] at hfirst
      cases hfirst
  | cons u us ih =>
    obtain ⟨w, ws, hw, hws, hwords⟩ := List.forall₂_cons_left_iff.mp h
    obtain ⟨rest, hfield, hrest, hsuffix⟩ :=
      field_of_word hwords hw hws fun _ _ hskip => front_of_blanks hblanks hskip
    rw [← hrest, wordsFrom_skipBlanks] at hws
    -- what is left is an end of the text, so its blanks are those of the grammar as well
    have hlater := ih hws fun c hc => hblanks c (hsuffix.subset hc)
    refine fields_cons_iff.mpr ⟨_, _, _, ?_, hlater, rfl⟩
    rw [field_skipBlanks, hfield]

/-- Behind the last word there is no field. -/
theorem field_of_no_words {u : Unit} {cs : List Char} (h : Text.wordsFrom [] cs = []) :
    field u cs = none := by
  refine Option.eq_none_iff_forall_ne_some.mpr fun r hr => ?_
  obtain ⟨ns, rest⟩ := r
  obtain ⟨c, ds, hskip, hbegins⟩ := begins_of_field hr
  rw [← wordsFrom_skipBlanks, hskip] at h
  have hblank := Text.blanks_of_wordsFrom h c List.mem_cons_self
  rw [visible_of_begins hbegins] at hblank
  cases hblank

/-! ### Expressions -/

/-- A seconds field of zero in front of further fields. -/
theorem field_zero {cs : List Char}
    (h : ∀ c, (skipBlanks cs).head? = some c → c ∉ ['-', '/', ',']) :
    field .second ('0' :: ' ' :: cs) = some ([0], skipBlanks cs) := by
  have hzero : field .second ['0'] = some ([0], []) := by decide
  have hends : Ends ['-', '/', ','] (' ' :: cs) := by
    refine ⟨fun c hc => ?_, h⟩
    obtain rfl := Option.some.inj hc
    decide
  have hread := field_append hzero hends
  have hskip : skipBlanks (' ' :: cs) = skipBlanks cs := List.dropWhile_cons_of_pos (by decide)
  rwa [List.singleton_append, hskip] at hread

namespace Schedule

/-- Only shorthands begin with an at sign. -/
theorem lookup_shorthands {s : String} (h : s.toList.head? ≠ some '@') :
    shorthands.lookup s = none := by
  refine List.lookup_eq_none_iff.mpr fun p hp => bne_iff_ne.mpr ?_
  have hat : ∀ p ∈ shorthands, p.1.toList.head? = some '@' := by decide
  rintro rfl
  exact h (hat p hp)

/-- The characters that are read as fields: those of the trimmed expression, behind a field for the
seconds if it has five words. -/
def widened (expr : String) : List Char :=
  if (Text.words expr).length = 5 then '0' :: ' ' :: (Text.trim expr).toList
  else (Text.trim expr).toList

/-- An expression that begins as a field does is read as fields. -/
theorem parse_eq {expr : String} {c : Char} {cs : List Char}
    (h : (Text.trim expr).toList = c :: cs) (hbegins : begins c = true) :
    parse expr = (ofFields? (widened expr)).elim (.error .malformed) .ok := by
  have hne : Text.trim expr ≠ "" := by
    intro hempty
    rw [hempty] at h
    cases h
  have hhead : (Text.trim expr).toList.head? ≠ some '@' := by
    rw [h]
    intro heq
    obtain rfl := Option.some.inj heq
    cases hbegins
  -- with five words the seconds come in front, and no shorthand does
  have hwiden : (widen (Text.trim expr)).toList = widened expr := by
    rw [widen, widened, Text.words_trim]
    by_cases hfive : (Text.words expr).length = 5
    · rw [if_pos ⟨hhead, hfive⟩, if_pos hfive, String.toList_append]
      rfl
    · rw [if_neg (fun h => hfive h.2), if_neg hfive]
  have hwhead : (widen (Text.trim expr)).toList.head? ≠ some '@' := by
    rw [hwiden, widened]
    split
    · simp
    · exact hhead
  have htext : ofText? (widen (Text.trim expr)) = ofFields? (widened expr) := by
    rw [ofText?, lookup_shorthands hwhead, hwiden]
    rfl
  rw [parse, if_neg hne, htext]
  cases ofFields? (widened expr) <;> rfl

theorem parse_eq_ok_iff {expr : String} {c : Char} {cs : List Char} {s : Schedule}
    (h : (Text.trim expr).toList = c :: cs) (hbegins : begins c = true) :
    parse expr = .ok s ↔ ofFields? (widened expr) = some s := by
  rw [parse_eq h hbegins]
  cases ofFields? (widened expr) <;> simp

end Schedule

theorem visible_of_trim {s : String} {c : Char} {cs : List Char}
    (h : (Text.trim s).toList = c :: cs) : Text.isBlank c = false := by
  rw [Text.trim, String.toList_ofList] at h
  exact (Text.exists_of_trimChars h).1

theorem skipBlanks_trim (s : String) : skipBlanks (Text.trim s).toList = (Text.trim s).toList := by
  cases h : (Text.trim s).toList with
  | nil => rfl
  | cons c cs => exact skipBlanks_cons (isBlank_of_visible (visible_of_trim h)) cs

/-- A trimmed text that is read as fields begins as a field does. -/
theorem exists_of_fields {u : Unit} {us : List Unit} {s : String} {rest : List Char}
    {nss : List (List Nat)} (h : fields (u :: us) (Text.trim s).toList = some (nss, rest)) :
    ∃ c cs, (Text.trim s).toList = c :: cs ∧ begins c = true := by
  obtain ⟨ns, mss, cs', hns, -, -⟩ := fields_cons_iff.mp h
  rw [← skipBlanks_trim]
  exact begins_of_field hns

theorem forall₂_words {us : List Unit} {s : String} :
    List.Forall₂ (fun u w => IsField numbers u w.toList) us (Text.words s) ↔
      List.Forall₂ (IsField numbers) us (Text.wordsFrom [] (Text.trim s).toList) := by
  rw [← Text.words_trim, Text.words, List.forall₂_map_right_iff]
  simp only [String.toList_ofList]

/-- A trimmed text whose words are fields begins as a field does. -/
theorem exists_of_words {u : Unit} {us : List Unit} {s : String}
    (h : List.Forall₂ (IsField numbers) (u :: us) (Text.wordsFrom [] (Text.trim s).toList)) :
    ∃ c cs, (Text.trim s).toList = c :: cs ∧ begins c = true := by
  cases htrim : (Text.trim s).toList with
  | nil =>
    rw [htrim] at h
    cases h
  | cons c cs =>
    have hvisible := visible_of_trim htrim
    rw [htrim] at h
    rcases front_of_words h (skipBlanks_cons (isBlank_of_visible hvisible) cs) with hc | hc
    · rw [hvisible] at hc
      cases hc
    · exact ⟨c, cs, rfl, hc⟩

/-- Behind a seconds field of zero the fields of a trimmed text are read. -/
theorem fields_zero {us : List Unit} {s : String} {c : Char} {cs rest : List Char}
    {nss : List (List Nat)} (htrim : (Text.trim s).toList = c :: cs) (hc : begins c = true) :
    fields (.second :: us) ('0' :: ' ' :: (Text.trim s).toList) = some (nss, rest) ↔
      ∃ mss, fields us (Text.trim s).toList = some (mss, rest) ∧ nss = [0] :: mss := by
  have hmark : ∀ d, (skipBlanks (Text.trim s).toList).head? = some d → d ∉ ['-', '/', ','] := by
    intro d hd hmem
    rw [skipBlanks_trim, htrim] at hd
    obtain rfl := Option.some.inj hd
    simp only [List.mem_cons, List.not_mem_nil, or_false] at hmem
    rcases hmem with rfl | rfl | rfl <;> cases hc
  have hzero := field_zero hmark
  rw [skipBlanks_trim] at hzero
  rw [fields_cons_iff, hzero]
  constructor
  · rintro ⟨ns, mss, cs', hns, hmss, rfl⟩
    obtain ⟨rfl, rfl⟩ := Prod.mk.inj (Option.some.inj hns)
    exact ⟨mss, hmss, rfl⟩
  · rintro ⟨mss, hmss, rfl⟩
    exact ⟨[0], mss, _, rfl, hmss, rfl⟩

end Courier.Cron

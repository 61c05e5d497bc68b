import Courier.Cron.Grammar
import Mathlib.Data.List.TakeWhile
import Mathlib.Data.Option.Basic

/-!
The texts of the fields of a cron schedule.

`NumberText`, `NameText`, `SpanText`, `ItemText`, `MoreText` and `FieldText` say which texts spell
the parts of a field, with blanks around every number and name.  They follow the grammar and not the
readers.  What has been read is such a text (`exists_of_items`), and such a text is read as what it
spells, unless what follows goes on with it (`items_text`).

Readers try one way after the other and give back what they leave.  So to read a text that has
something behind it, one has to know that no other way is taken because of what follows.  `Ends
marks rest` says that `rest` goes on with none of some marks and with no digit or letter, blanks
aside; each reader needs it for the marks that it looks for.  What is left may be `rest` with or
without its blanks in front (`Left`), as the last thing that was read was a mark or a number.

Main statement: a text that is read as a whole field is read so too when something follows that does
not go on with it (`field_append`).
-/

namespace Courier.Cron

/-! ### Blanks and runs -/

/-- Whether there is nothing but blanks. -/
def Blanks (cs : List Char) : Prop := ∀ c ∈ cs, isBlank c = true

theorem skipBlanks_cons {c : Char} (h : isBlank c = false) (cs : List Char) :
    skipBlanks (c :: cs) = c :: cs :=
  List.dropWhile_cons_of_neg (by simp [h])

theorem skipBlanks_blanks_append {bs : List Char} (h : Blanks bs) (cs : List Char) :
    skipBlanks (bs ++ cs) = skipBlanks cs := by
  induction bs with
  | nil => rfl
  | cons b bs ih =>
    obtain ⟨hb, hbs⟩ := List.forall_mem_cons.mp h
    rw [List.cons_append, skipBlanks, List.dropWhile_cons_of_pos hb]
    exact ih hbs

theorem isBlank_of_skipBlanks {c : Char} {cs rest : List Char} (h : skipBlanks cs = c :: rest) :
    isBlank c = false := by
  have hhead := List.head?_dropWhile_not isBlank cs
  rw [← skipBlanks, h] at hhead
  simpa using hhead

theorem skipBlanks_skipBlanks (cs : List Char) : skipBlanks (skipBlanks cs) = skipBlanks cs := by
  cases h : skipBlanks cs with
  | nil => rfl
  | cons c rest => exact skipBlanks_cons (isBlank_of_skipBlanks h) rest

theorem exists_skipBlanks (cs : List Char) : ∃ bs, cs = bs ++ skipBlanks cs ∧ Blanks bs :=
  ⟨cs.takeWhile isBlank, List.takeWhile_append_dropWhile.symm, fun _ h => List.mem_takeWhile_imp h⟩

/-- A run of characters ends where a character of another kind follows. -/
theorem run_append {p : Char → Bool} {run rest : List Char} (hrun : ∀ c ∈ run, p c = true)
    (hrest : ∀ c, rest.head? = some c → p c = false) :
    (run ++ rest).takeWhile p = run ∧ (run ++ rest).dropWhile p = rest := by
  induction run with
  | nil =>
    cases rest with
    | nil => exact ⟨rfl, rfl⟩
    | cons c cs =>
      have hc : ¬p c = true := by simp [hrest c rfl]
      exact ⟨List.takeWhile_cons_of_neg hc, List.dropWhile_cons_of_neg hc⟩
  | cons c run ih =>
    obtain ⟨hc, hcs⟩ := List.forall_mem_cons.mp hrun
    obtain ⟨htake, hdrop⟩ := ih hcs
    rw [List.cons_append, List.takeWhile_cons_of_pos hc, List.dropWhile_cons_of_pos hc, htake]
    exact ⟨rfl, hdrop⟩

/-- A text that is a run of characters between blanks. -/
structure Padded (p : Char → Bool) (run t : List Char) : Prop where
  nonempty : run ≠ []
  all : ∀ c ∈ run, p c = true
  text : ∃ as bs, t = as ++ (run ++ bs) ∧ Blanks as ∧ Blanks bs

/-- Whether no blank is of a kind. -/
def Visible (p : Char → Bool) : Prop := ∀ c, isBlank c = true → p c = false

theorem visible_isDigit : Visible isDigit := by
  intro c hc
  simp only [isBlank, Bool.or_eq_true, decide_eq_true_eq] at hc
  rcases hc with ((rfl | rfl) | rfl) | rfl <;> rfl

theorem visible_isLetter : Visible isLetter := by
  intro c hc
  simp only [isBlank, Bool.or_eq_true, decide_eq_true_eq] at hc
  rcases hc with ((rfl | rfl) | rfl) | rfl <;> rfl

theorem Visible.isBlank {p : Char → Bool} (hp : Visible p) {c : Char} (h : p c = true) :
    isBlank c = false := by
  by_contra hc
  rw [hp c (by simpa using hc)] at h
  cases h

/-- The blanks in front of a run are skipped, those behind it are not. -/
theorem Padded.exists_behind {p : Char → Bool} (hp : Visible p) {run t : List Char}
    (h : Padded p run t) :
    ∃ bs, Blanks bs ∧ ∀ rest, skipBlanks (t ++ rest) = run ++ (bs ++ rest) := by
  obtain ⟨as, bs, rfl, has, hbs⟩ := h.text
  obtain ⟨c, run, rfl⟩ := List.exists_cons_of_ne_nil h.nonempty
  refine ⟨bs, hbs, fun rest => ?_⟩
  rw [List.append_assoc, List.append_assoc, skipBlanks_blanks_append has, List.cons_append,
    skipBlanks_cons (hp.isBlank (h.all c List.mem_cons_self))]

/-- The run is taken, and then the blanks behind it are skipped. -/
theorem Padded.run {p : Char → Bool} (hp : Visible p) {run t rest : List Char} (h : Padded p run t)
    (hrest : ∀ c, rest.head? = some c → p c = false) :
    (skipBlanks (t ++ rest)).takeWhile p = run ∧
      skipBlanks ((skipBlanks (t ++ rest)).dropWhile p) = skipBlanks rest := by
  obtain ⟨bs, hbs, hskip⟩ := h.exists_behind hp
  -- a blank ends the run as well as what follows does
  have hbehind : ∀ c, (bs ++ rest).head? = some c → p c = false := by
    intro c hc
    cases bs with
    | nil => exact hrest c hc
    | cons b bs =>
      obtain rfl := Option.some.inj hc
      exact hp b (hbs b List.mem_cons_self)
  obtain ⟨htake, hdrop⟩ := run_append h.all hbehind
  rw [hskip, htake, hdrop, skipBlanks_blanks_append hbs]
  exact ⟨rfl, rfl⟩

/-- Behind its blanks a padded run begins with one of its characters. -/
theorem Padded.exists_skipBlanks {p : Char → Bool} (hp : Visible p) {run t : List Char}
    (h : Padded p run t) (rest : List Char) :
    ∃ c cs, skipBlanks (t ++ rest) = c :: cs ∧ p c = true := by
  obtain ⟨bs, -, hskip⟩ := h.exists_behind hp
  obtain ⟨c, run, rfl⟩ := List.exists_cons_of_ne_nil h.nonempty
  exact ⟨c, run ++ (bs ++ rest), hskip rest, h.all c List.mem_cons_self⟩

/-- What is taken is a run between blanks. -/
theorem exists_padded {p : Char → Bool} {cs : List Char} (h : (skipBlanks cs).takeWhile p ≠ []) :
    ∃ t, cs = t ++ skipBlanks ((skipBlanks cs).dropWhile p) ∧
      Padded p ((skipBlanks cs).takeWhile p) t := by
  obtain ⟨as, hcs, has⟩ := exists_skipBlanks cs
  obtain ⟨bs, hrest, hbs⟩ := exists_skipBlanks ((skipBlanks cs).dropWhile p)
  refine ⟨as ++ ((skipBlanks cs).takeWhile p ++ bs), ?_, h, fun _ hc => List.mem_takeWhile_imp hc,
    as, bs, rfl, has, hbs⟩
  rw [List.append_assoc, List.append_assoc, ← hrest, List.takeWhile_append_dropWhile]
  exact hcs

/-! ### What follows a part -/

/-- Whether what follows a part does not go on with it: it begins with neither a digit nor a letter,
and behind its blanks comes none of some marks. -/
structure Ends (marks rest : List Char) : Prop where
  apart : ∀ c, rest.head? = some c → isDigit c = false ∧ isLetter c = false
  unmarked : ∀ c, (skipBlanks rest).head? = some c → c ∉ marks

/-- Whether what is left of a rest is the rest, or the rest without its blanks. -/
def Left (rest left : List Char) : Prop := left = rest ∨ left = skipBlanks rest

theorem Ends.mono {marks marks' rest : List Char} (h : Ends marks rest) (hle : marks' ⊆ marks) :
    Ends marks' rest :=
  ⟨h.apart, fun c hc hmem => h.unmarked c hc (hle hmem)⟩

/-- A mark ends what it does not go on with. -/
theorem ends_cons {c : Char} (hc : c ∈ ['-', '/', ',']) {marks : List Char} (h : c ∉ marks)
    (cs : List Char) : Ends marks (c :: cs) := by
  have hkinds : isDigit c = false ∧ isLetter c = false ∧ isBlank c = false := by
    simp only [List.mem_cons, List.not_mem_nil, or_false] at hc
    rcases hc with rfl | rfl | rfl <;> decide
  obtain ⟨hdigit, hletter, hblank⟩ := hkinds
  constructor
  · intro d hd
    obtain rfl := Option.some.inj hd
    exact ⟨hdigit, hletter⟩
  · intro d hd
    rw [skipBlanks_cons hblank] at hd
    obtain rfl := Option.some.inj hd
    exact h

/-- Blanks end what is ended by what comes behind them. -/
theorem Ends.blanks_append {marks rest bs : List Char} (h : Ends marks rest) (hbs : Blanks bs) :
    Ends marks (bs ++ rest) := by
  constructor
  · intro c hc
    cases bs with
    | nil => exact h.apart c hc
    | cons b bs =>
      obtain rfl := Option.some.inj hc
      have hb := hbs b List.mem_cons_self
      exact ⟨visible_isDigit b hb, visible_isLetter b hb⟩
  · rw [skipBlanks_blanks_append hbs]
    exact h.unmarked

theorem Left.skipBlanks {rest left : List Char} (h : Left rest left) :
    skipBlanks left = skipBlanks rest := by
  obtain rfl | rfl := h
  · rfl
  · exact skipBlanks_skipBlanks rest

theorem Left.eq_cons {c : Char} (hc : isBlank c = false) {cs left : List Char}
    (h : Left (c :: cs) left) : left = c :: cs := by
  obtain rfl | rfl := h
  · rfl
  · exact skipBlanks_cons hc cs

/-! ### Characters -/

theorem char_self (c : Char) (cs : List Char) : char c (c :: cs) = some ((), cs) := by
  rw [char, if_pos rfl]

theorem char_eq_none {c : Char} {cs : List Char} (h : cs.head? ≠ some c) : char c cs = none := by
  cases cs with
  | nil => rfl
  | cons d cs =>
    rw [char, if_neg]
    rintro rfl
    exact h rfl

theorem eq_cons_of_char {c : Char} {cs rest : List Char} {a : PUnit}
    (h : char c cs = some (a, rest)) : cs = c :: rest := by
  cases cs with
  | nil => cases h
  | cons d cs =>
    rw [char] at h
    split at h
    · rename_i heq
      obtain rfl := heq
      rw [(Prod.mk.inj (Option.some.inj h)).2]
    · cases h

/-- No mark is found where a part has ended. -/
theorem Ends.char_eq_none {marks rest left : List Char} (h : Ends marks rest)
    (hleft : Left rest left) {c : Char} (hblank : isBlank c = false) (hc : c ∈ marks) :
    char c left = none := by
  refine Cron.char_eq_none fun hhead => ?_
  obtain ⟨cs, rfl⟩ := List.head?_eq_some_iff.mp hhead
  have hskip := hleft.skipBlanks
  rw [skipBlanks_cons hblank] at hskip
  exact h.unmarked c (by rw [← hskip]; rfl) hc

/-! ### Numbers and names -/

/-- The texts of a number. -/
def NumberText (n : Nat) (t : List Char) : Prop :=
  ∃ run, Padded isDigit run t ∧ value run = n ∧ n < bound32

/-- The texts of a name. -/
def NameText (w : String) (t : List Char) : Prop :=
  ∃ run, Padded isLetter run t ∧ String.ofList run = w

theorem number_text {n : Nat} {t rest : List Char} (h : NumberText n t) (hrest : Ends [] rest) :
    number (t ++ rest) = some (n, skipBlanks rest) := by
  obtain ⟨run, hrun, rfl, hbound⟩ := h
  obtain ⟨htake, hdrop⟩ := hrun.run visible_isDigit fun c hc => (hrest.apart c hc).1
  have hsound : ¬(run.isEmpty ∨ bound32 ≤ value run) := by
    simp only [List.isEmpty_iff, not_or]
    exact ⟨hrun.nonempty, Nat.not_le.mpr hbound⟩
  simp only [number, htake, hdrop, if_neg hsound]

theorem number_eq_none {cs : List Char} (h : (skipBlanks cs).takeWhile isDigit = []) :
    number cs = none := by
  simp [number, h]

theorem name_eq_none {cs : List Char} (h : (skipBlanks cs).takeWhile isLetter = []) :
    name cs = none := by
  simp [name, h]

theorem exists_of_number {n : Nat} {cs rest : List Char} (h : number cs = some (n, rest)) :
    ∃ t, cs = t ++ rest ∧ NumberText n t := by
  unfold number at h
  dsimp only at h
  split at h
  · cases h
  · rename_i hsound
    obtain ⟨rfl, rfl⟩ := Prod.mk.inj (Option.some.inj h)
    simp only [List.isEmpty_iff, not_or, Nat.not_le] at hsound
    obtain ⟨t, hcs, ht⟩ := exists_padded hsound.1
    exact ⟨t, hcs, _, ht, rfl, hsound.2⟩

theorem name_text {w : String} {t rest : List Char} (h : NameText w t) (hrest : Ends [] rest) :
    name (t ++ rest) = some (w, skipBlanks rest) := by
  obtain ⟨run, hrun, rfl⟩ := h
  obtain ⟨htake, hdrop⟩ := hrun.run visible_isLetter fun c hc => (hrest.apart c hc).2
  have hsound : ¬run.isEmpty = true := by simpa using hrun.nonempty
  simp only [name, htake, hdrop, if_neg hsound]

theorem exists_of_name {w : String} {cs rest : List Char} (h : name cs = some (w, rest)) :
    ∃ t, cs = t ++ rest ∧ NameText w t := by
  unfold name at h
  dsimp only at h
  split at h
  · cases h
  · rename_i hsound
    obtain ⟨rfl, rfl⟩ := Prod.mk.inj (Option.some.inj h)
    have hne : (skipBlanks cs).takeWhile isLetter ≠ [] := by simpa using hsound
    obtain ⟨t, hcs, ht⟩ := exists_padded hne
    exact ⟨t, hcs, _, ht, rfl⟩

/-! ### Parts of a field -/

/-- The texts of two of a kind with a dash between them. -/
def DashedText {α : Type} (text : α → List Char → Prop) (a b : α) (t : List Char) : Prop :=
  ∃ t₁ t₂, t = t₁ ++ '-' :: t₂ ∧ text a t₁ ∧ text b t₂

/-- The texts of a stretch. -/
inductive SpanText (u : Unit) : Span → List Char → Prop
  | question (h : u.mayBeOpen = true) : SpanText u .all ['?']
  | all : SpanText u .all ['*']
  | range {a b : Nat} {t : List Char} (h : DashedText NumberText a b t) : SpanText u (.range a b) t
  | point {n : Nat} {t : List Char} (h : NumberText n t) : SpanText u (.point n) t
  | named {a b : String} {t : List Char} (h : DashedText NameText a b t) : SpanText u (.named a b) t

/-- The texts of an item. -/
inductive ItemText (u : Unit) : Item → List Char → Prop
  | stepped {s : Span} {n : Nat} {t₁ t₂ : List Char} (hs : SpanText u s t₁) (hn : NumberText n t₂) :
    ItemText u (.stepped s n) (t₁ ++ '/' :: t₂)
  | plain {s : Span} {t : List Char} (h : SpanText u s t) : ItemText u (.plain s) t
  | word {w : String} {t : List Char} (h : NameText w t) : ItemText u (.word w) t

/-- The texts of further items. -/
inductive MoreText (u : Unit) : List Item → List Char → Prop
  | nil : MoreText u [] []
  | cons {i : Item} {is : List Item} {t₁ t₂ : List Char} (hi : ItemText u i t₁)
      (his : MoreText u is t₂) : MoreText u (i :: is) (',' :: (t₁ ++ t₂))

/-- The texts of the items of a field; the blanks in front of the first item are those of the
field. -/
def FieldText (u : Unit) (is : List Item) (t : List Char) : Prop :=
  ∃ i js as t₁ t₂ bs, is = i :: js ∧ t = as ++ (t₁ ++ (t₂ ++ bs)) ∧ Blanks as ∧ Blanks bs ∧
    (∀ c, t₁.head? = some c → isBlank c = false) ∧ ItemText u i t₁ ∧ MoreText u js t₂

/-! ### How a part begins -/

/-- Whether a part of a field may begin with a character. -/
def begins (c : Char) : Bool := c = '?' || c = '*' || isDigit c || isLetter c

theorem NumberText.begins {n : Nat} {t : List Char} (h : NumberText n t) (rest : List Char) :
    ∃ c cs, skipBlanks (t ++ rest) = c :: cs ∧ begins c = true := by
  obtain ⟨run, hrun, -⟩ := h
  obtain ⟨c, cs, hskip, hc⟩ := hrun.exists_skipBlanks visible_isDigit rest
  exact ⟨c, cs, hskip, by simp [Cron.begins, hc]⟩

theorem NameText.begins {w : String} {t : List Char} (h : NameText w t) (rest : List Char) :
    ∃ c cs, skipBlanks (t ++ rest) = c :: cs ∧ begins c = true := by
  obtain ⟨run, hrun, -⟩ := h
  obtain ⟨c, cs, hskip, hc⟩ := hrun.exists_skipBlanks visible_isLetter rest
  exact ⟨c, cs, hskip, by simp [Cron.begins, hc]⟩

/-- A text of two of a kind begins with a text of the first. -/
theorem DashedText.exists_first {α : Type} {text : α → List Char → Prop} {a b : α} {t : List Char}
    (h : DashedText text a b t) (rest : List Char) :
    ∃ t₁ rest', t ++ rest = t₁ ++ rest' ∧ text a t₁ := by
  obtain ⟨t₁, t₂, rfl, ht₁, -⟩ := h
  exact ⟨t₁, '-' :: t₂ ++ rest, List.append_assoc _ _ _, ht₁⟩

theorem SpanText.begins {u : Unit} {s : Span} {t : List Char} (h : SpanText u s t)
    (rest : List Char) : ∃ c cs, skipBlanks (t ++ rest) = c :: cs ∧ begins c = true := by
  cases h with
  | question _ => exact ⟨'?', rest, rfl, rfl⟩
  | all => exact ⟨'*', rest, rfl, rfl⟩
  | range h =>
    obtain ⟨t₁, rest', heq, hfirst⟩ := h.exists_first rest
    rw [heq]
    exact hfirst.begins rest'
  | point h => exact h.begins rest
  | named h =>
    obtain ⟨t₁, rest', heq, hfirst⟩ := h.exists_first rest
    rw [heq]
    exact hfirst.begins rest'

theorem ItemText.begins {u : Unit} {i : Item} {t : List Char} (h : ItemText u i t)
    (rest : List Char) : ∃ c cs, skipBlanks (t ++ rest) = c :: cs ∧ begins c = true := by
  cases h with
  | stepped hs _ =>
    rw [List.append_assoc]
    exact hs.begins _
  | plain h => exact h.begins rest
  | word h => exact h.begins rest

/-! ### What has been read is such a text -/

theorem exists_of_dashed {α : Type} {text : α → List Char → Prop} {r : Reader α}
    (hr : ∀ {a cs rest}, r cs = some (a, rest) → ∃ t, cs = t ++ rest ∧ text a t) {p : α × α}
    {cs rest : List Char} (h : dashed r cs = some (p, rest)) :
    ∃ t, cs = t ++ rest ∧ DashedText text p.1 p.2 t := by
  unfold dashed at h
  obtain ⟨⟨a, cs₁⟩, ha, h⟩ := Option.bind_eq_some_iff.mp h
  obtain ⟨⟨_, cs₂⟩, hdash, h⟩ := Option.bind_eq_some_iff.mp h
  obtain ⟨⟨b, cs₃⟩, hb, h⟩ := Option.bind_eq_some_iff.mp h
  obtain ⟨rfl, rfl⟩ := Prod.mk.inj (Option.some.inj h)
  obtain ⟨t₁, rfl, ht₁⟩ := hr ha
  obtain rfl := eq_cons_of_char hdash
  obtain ⟨t₂, rfl, ht₂⟩ := hr hb
  exact ⟨t₁ ++ '-' :: t₂, by simp, t₁, t₂, rfl, ht₁, ht₂⟩

theorem exists_of_span {u : Unit} {s : Span} {cs rest : List Char}
    (h : span u cs = some (s, rest)) : ∃ t, cs = t ++ rest ∧ SpanText u s t := by
  simp only [span, Option.orElse_eq_orElse, Option.orElse_eq_or, Option.or_eq_some_iff,
    Option.map_eq_some_iff, Option.ite_none_right_eq_some] at h
  rcases h with
    ⟨hopen, a, ha, h⟩ | ⟨-, ⟨a, ha, h⟩ | ⟨-, ⟨a, ha, h⟩ | ⟨-, ⟨a, ha, h⟩ | ⟨-, a, ha, h⟩⟩⟩⟩
  all_goals obtain ⟨rfl, rfl⟩ := Prod.mk.inj h
  · exact ⟨['?'], eq_cons_of_char ha, .question hopen⟩
  · exact ⟨['*'], eq_cons_of_char ha, .all⟩
  · obtain ⟨t, hcs, ht⟩ := exists_of_dashed exists_of_number ha
    exact ⟨t, hcs, .range ht⟩
  · obtain ⟨t, hcs, ht⟩ := exists_of_number ha
    exact ⟨t, hcs, .point ht⟩
  · obtain ⟨t, hcs, ht⟩ := exists_of_dashed exists_of_name ha
    exact ⟨t, hcs, .named ht⟩

theorem exists_of_stepped {u : Unit} {i : Item} {cs rest : List Char}
    (h : stepped u cs = some (i, rest)) : ∃ t, cs = t ++ rest ∧ ItemText u i t := by
  unfold stepped at h
  obtain ⟨⟨s, cs₁⟩, hs, h⟩ := Option.bind_eq_some_iff.mp h
  obtain ⟨⟨_, cs₂⟩, hslash, h⟩ := Option.bind_eq_some_iff.mp h
  obtain ⟨⟨n, cs₃⟩, hn, h⟩ := Option.bind_eq_some_iff.mp h
  obtain ⟨rfl, rfl⟩ := Prod.mk.inj (Option.some.inj h)
  obtain ⟨t₁, rfl, ht₁⟩ := exists_of_span hs
  obtain rfl := eq_cons_of_char hslash
  obtain ⟨t₂, rfl, ht₂⟩ := exists_of_number hn
  exact ⟨t₁ ++ '/' :: t₂, by simp, .stepped ht₁ ht₂⟩

theorem exists_of_item {u : Unit} {i : Item} {cs rest : List Char}
    (h : item u cs = some (i, rest)) : ∃ t, cs = t ++ rest ∧ ItemText u i t := by
  simp only [item, Option.orElse_eq_orElse, Option.orElse_eq_or, Option.or_eq_some_iff,
    Option.map_eq_some_iff] at h
  rcases h with h | ⟨-, ⟨a, ha, h⟩ | ⟨-, a, ha, h⟩⟩
  · exact exists_of_stepped h
  · obtain ⟨rfl, rfl⟩ := Prod.mk.inj h
    obtain ⟨t, hcs, ht⟩ := exists_of_span ha
    exact ⟨t, hcs, .plain ht⟩
  · obtain ⟨rfl, rfl⟩ := Prod.mk.inj h
    obtain ⟨t, hcs, ht⟩ := exists_of_name ha
    exact ⟨t, hcs, .word ht⟩

theorem exists_of_moreItems {u : Unit} {n : Nat} {is : List Item} {cs rest : List Char}
    (h : moreItems u n cs = (is, rest)) : ∃ t, cs = t ++ rest ∧ MoreText u is t := by
  induction n generalizing cs is with
  | zero =>
    obtain ⟨rfl, rfl⟩ := Prod.mk.inj h
    exact ⟨[], rfl, .nil⟩
  | succ n ih =>
    rw [moreItems] at h
    split at h
    · rename_i i cs₁ hi
      obtain ⟨⟨_, cs₂⟩, hcomma, hi⟩ := Option.bind_eq_some_iff.mp hi
      obtain ⟨rfl, rfl⟩ := Prod.mk.inj h
      obtain rfl := eq_cons_of_char hcomma
      obtain ⟨t₁, rfl, ht₁⟩ := exists_of_item hi
      obtain ⟨t₂, hcs, ht₂⟩ := ih (rfl : _ = (_, _))
      refine ⟨',' :: (t₁ ++ t₂), ?_, .cons ht₁ ht₂⟩
      rw [List.cons_append, List.append_assoc, ← hcs]
    · obtain ⟨rfl, rfl⟩ := Prod.mk.inj h
      exact ⟨[], rfl, .nil⟩

/-- What has been read as the items of a field is a text of them. -/
theorem exists_of_items {u : Unit} {is : List Item} {cs rest : List Char}
    (h : items u cs = some (is, rest)) : ∃ t, cs = t ++ rest ∧ FieldText u is t := by
  unfold items at h
  obtain ⟨⟨i, cs₁⟩, hi, h⟩ := Option.bind_eq_some_iff.mp h
  obtain ⟨rfl, rfl⟩ := Prod.mk.inj (Option.some.inj h)
  obtain ⟨as, hcs, has⟩ := exists_skipBlanks cs
  obtain ⟨t₁, hskip, ht₁⟩ := exists_of_item hi
  obtain ⟨t₂, hcs₁, ht₂⟩ := exists_of_moreItems (rfl : moreItems u cs₁.length cs₁ = (_, _))
  obtain ⟨bs, hrest, hbs⟩ := exists_skipBlanks (moreItems u cs₁.length cs₁).2
  refine ⟨as ++ (t₁ ++ (t₂ ++ bs)), ?_, i, _, as, t₁, t₂, bs, rfl, rfl, has, hbs, ?_, ht₁, ht₂⟩
  · simp only [List.append_assoc]
    rw [← hrest, ← hcs₁, ← hskip]
    exact hcs
  · intro c hc
    obtain ⟨t', rfl⟩ := List.head?_eq_some_iff.mp hc
    exact isBlank_of_skipBlanks hskip

/-! ### Such a text is read as what it spells -/

theorem isDigit_of_isLetter {c : Char} (h : isLetter c = true) : isDigit c = false := by
  simp only [isLetter, Bool.or_eq_true, Bool.and_eq_true, decide_eq_true_eq, Char.le_def,
    UInt32.le_iff_toNat_le] at h
  simp only [isDigit, Bool.and_eq_false_iff, decide_eq_false_iff_not, Char.le_def,
    UInt32.le_iff_toNat_le]
  have hupper : ('9' : Char).val.toNat < ('A' : Char).val.toNat ∧
      ('9' : Char).val.toNat < ('a' : Char).val.toNat := by decide
  omega

/-- A padded run does not begin with a mark, which is neither a blank nor of its kind. -/
theorem Padded.char_eq_none {p : Char → Bool} (hp : Visible p) {run t : List Char}
    (h : Padded p run t) {c : Char} (hblank : isBlank c = false) (hc : p c = false)
    (rest : List Char) : char c (t ++ rest) = none := by
  refine Cron.char_eq_none fun hhead => ?_
  obtain ⟨cs, heq⟩ := List.head?_eq_some_iff.mp hhead
  obtain ⟨d, ds, hskip, hd⟩ := h.exists_skipBlanks hp rest
  rw [heq, skipBlanks_cons hblank] at hskip
  obtain ⟨rfl, -⟩ := List.cons.inj hskip
  rw [hd] at hc
  cases hc

theorem NumberText.char_eq_none {n : Nat} {t : List Char} (h : NumberText n t) {c : Char}
    (hblank : isBlank c = false) (hc : isDigit c = false) (rest : List Char) :
    char c (t ++ rest) = none := by
  obtain ⟨run, hrun, -⟩ := h
  exact hrun.char_eq_none visible_isDigit hblank hc rest

theorem NameText.char_eq_none {w : String} {t : List Char} (h : NameText w t) {c : Char}
    (hblank : isBlank c = false) (hc : isLetter c = false) (rest : List Char) :
    char c (t ++ rest) = none := by
  obtain ⟨run, hrun, -⟩ := h
  exact hrun.char_eq_none visible_isLetter hblank hc rest

theorem NameText.number_eq_none {w : String} {t : List Char} (h : NameText w t)
    (rest : List Char) : number (t ++ rest) = none := by
  obtain ⟨run, hrun, -⟩ := h
  obtain ⟨c, cs, hskip, hc⟩ := hrun.exists_skipBlanks visible_isLetter rest
  refine Cron.number_eq_none ?_
  rw [hskip, List.takeWhile_cons_of_neg (by simp [isDigit_of_isLetter hc])]

theorem dashed_text {α : Type} {text : α → List Char → Prop} {r : Reader α}
    (hr : ∀ {a t rest}, text a t → Ends [] rest → r (t ++ rest) = some (a, skipBlanks rest))
    {a b : α} {t rest : List Char} (h : DashedText text a b t) (hrest : Ends [] rest) :
    dashed r (t ++ rest) = some ((a, b), skipBlanks rest) := by
  obtain ⟨t₁, t₂, rfl, ht₁, ht₂⟩ := h
  -- behind the first stands the dash, in front of which there is no blank left
  have hdash : Ends [] ('-' :: (t₂ ++ rest)) := ends_cons (by decide) (by decide) _
  have hfirst := hr ht₁ hdash
  rw [skipBlanks_cons (by decide)] at hfirst
  simp only [dashed, List.append_assoc, List.cons_append, hfirst, char_self, hr ht₂ hrest,
    Option.bind_eq_bind, Option.bind_some]
  rfl

theorem dashed_eq_none {α : Type} {r : Reader α} {a : α} {cs rest : List Char}
    (h : r cs = some (a, rest)) (hdash : char '-' rest = none) : dashed r cs = none := by
  simp only [dashed, h, Option.bind_eq_bind, Option.bind_some, hdash, Option.bind_none]

/-- Where a name begins there is neither a mark that stands for all numbers nor a number. -/
theorem span_of_name {w : String} {t : List Char} (h : NameText w t) (u : Unit) (rest : List Char) :
    span u (t ++ rest) = (dashed name (t ++ rest)).map fun ((a, b), r) => (Span.named a b, r) := by
  have hopen := h.char_eq_none (c := '?') (by decide) (by decide) rest
  have hall := h.char_eq_none (c := '*') (by decide) (by decide) rest
  have hnumber := h.number_eq_none rest
  have hrange : dashed number (t ++ rest) = none := by simp [dashed, hnumber]
  simp [span, hopen, hall, hrange, hnumber]

/-- A name alone is not a stretch. -/
theorem span_eq_none {u : Unit} {w : String} {t rest : List Char} (h : NameText w t)
    (hrest : Ends ['-'] rest) : span u (t ++ rest) = none := by
  have hread := name_text h (hrest.mono (List.nil_subset _))
  rw [span_of_name h, dashed_eq_none hread (hrest.char_eq_none (.inr rfl) (by decide) (by simp)),
    Option.map_none]

/-- A stretch is read as what it spells, if no dash follows. -/
theorem span_text {u : Unit} {s : Span} {t rest : List Char} (h : SpanText u s t)
    (hrest : Ends ['-'] rest) : ∃ left, span u (t ++ rest) = some (s, left) ∧ Left rest left := by
  have hfree : Ends [] rest := hrest.mono (List.nil_subset _)
  have hskipped : Left rest (skipBlanks rest) := .inr rfl
  -- by what the stretch is; a number could still become a range, were there a dash
  cases h with
  | question hopen => exact ⟨rest, by simp [span, hopen, char_self], .inl rfl⟩
  | all => exact ⟨rest, by simp [span, char], .inl rfl⟩
  | range h =>
    have hread := dashed_text number_text h hfree
    obtain ⟨t₁, rest', heq, hfirst⟩ := h.exists_first rest
    rw [heq] at hread ⊢
    have hopen := hfirst.char_eq_none (c := '?') (by decide) (by decide) rest'
    have hall := hfirst.char_eq_none (c := '*') (by decide) (by decide) rest'
    exact ⟨_, by simp [span, hopen, hall, hread], hskipped⟩
  | point h =>
    have hread := number_text h hfree
    have hdash := dashed_eq_none hread (hrest.char_eq_none hskipped (by decide) (by simp))
    have hopen := h.char_eq_none (c := '?') (by decide) (by decide) rest
    have hall := h.char_eq_none (c := '*') (by decide) (by decide) rest
    exact ⟨_, by simp [span, hopen, hall, hdash, hread], hskipped⟩
  | named h =>
    have hread := dashed_text name_text h hfree
    obtain ⟨t₁, rest', heq, hfirst⟩ := h.exists_first rest
    rw [heq] at hread ⊢
    exact ⟨_, by rw [span_of_name hfirst, hread, Option.map_some], hskipped⟩

/-- An item is read as what it spells, if neither a dash nor a slash follows. -/
theorem item_text {u : Unit} {i : Item} {t rest : List Char} (h : ItemText u i t)
    (hrest : Ends ['-', '/'] rest) :
    ∃ left, item u (t ++ rest) = some (i, left) ∧ Left rest left := by
  have hfree : Ends [] rest := hrest.mono (List.nil_subset _)
  have hdash : Ends ['-'] rest := hrest.mono (by simp)
  -- a step needs a slash, which is there or is not
  cases h with
  | @stepped s n t₁ t₂ hs hn =>
    have hslash : Ends ['-'] ('/' :: (t₂ ++ rest)) := ends_cons (by decide) (by decide) _
    obtain ⟨left, hspan, hleft⟩ := span_text hs hslash
    obtain rfl := hleft.eq_cons (by decide)
    have hread : stepped u (t₁ ++ '/' :: t₂ ++ rest) = some (.stepped s n, skipBlanks rest) := by
      simp only [stepped, List.append_assoc, List.cons_append, hspan, char_self,
        number_text hn hfree, Option.bind_eq_bind, Option.bind_some]
      rfl
    rw [List.append_assoc, List.cons_append] at hread ⊢
    exact ⟨_, by simp [item, hread], .inr rfl⟩
  | plain h =>
    obtain ⟨left, hspan, hleft⟩ := span_text h hdash
    have hslash : stepped u (t ++ rest) = none := by
      simp only [stepped, hspan, hrest.char_eq_none hleft (c := '/') (by decide) (by simp),
        Option.bind_eq_bind, Option.bind_some, Option.bind_none]
    exact ⟨left, by simp [item, hslash, hspan], hleft⟩
  | word h =>
    -- a word is tried last, when there is no stretch
    have hspan := span_eq_none (u := u) h hdash
    have hstepped : stepped u (t ++ rest) = none := by simp [stepped, hspan]
    exact ⟨_, by simp [item, hstepped, hspan, name_text h hfree], .inr rfl⟩

theorem MoreText.length_le {u : Unit} {is : List Item} {t : List Char} (h : MoreText u is t) :
    is.length ≤ t.length := by
  induction h with
  | nil => exact Nat.le_refl _
  | cons _ _ ih =>
    simp only [List.length_cons, List.length_append]
    omega

/-- There are no more items than characters left. -/
theorem MoreText.length_le_left {u : Unit} {is : List Item} {t rest left : List Char}
    (h : MoreText u is t) (hleft : Left (t ++ rest) left) : is.length ≤ left.length := by
  have hle := h.length_le
  cases h with
  | nil => exact Nat.zero_le _
  | cons hi his =>
    rw [List.cons_append] at hleft
    obtain rfl := hleft.eq_cons (by decide)
    simp only [List.length_cons, List.length_append] at hle ⊢
    omega

/-- What ends a field ends the items in front of further items. -/
theorem MoreText.ends {u : Unit} {is : List Item} {t rest : List Char} (h : MoreText u is t)
    (hrest : Ends ['-', '/', ','] rest) : Ends ['-', '/'] (t ++ rest) := by
  cases h with
  | nil => exact hrest.mono (by simp)
  | cons _ _ => exact ends_cons (by decide) (by decide) _

/-- Further items are read as what they spell, if no comma follows. -/
theorem moreItems_text {u : Unit} {is : List Item} {t rest left : List Char} (h : MoreText u is t)
    (hrest : Ends ['-', '/', ','] rest) (hleft : Left (t ++ rest) left) {n : Nat}
    (hn : is.length ≤ n) : ∃ left', moreItems u n left = (is, left') ∧ Left rest left' := by
  -- along the text; there are at least as many tries left as items
  induction h generalizing n left with
  | nil =>
    have hcomma := hrest.char_eq_none (c := ',') hleft (by decide) (by simp)
    cases n with
    | zero => exact ⟨left, rfl, hleft⟩
    | succ n => exact ⟨left, by simp [moreItems, hcomma], hleft⟩
  | @cons i is t₁ t₂ hi his ih =>
    obtain ⟨n, rfl⟩ : ∃ m, n = m + 1 := Nat.exists_eq_add_one.mpr (Nat.lt_of_lt_of_le (by simp) hn)
    rw [List.cons_append, List.append_assoc] at hleft
    obtain rfl := hleft.eq_cons (by decide)
    obtain ⟨left₁, hitem, hleft₁⟩ := item_text hi (his.ends hrest)
    obtain ⟨left', hmore, hleft'⟩ := ih hleft₁ (Nat.le_of_succ_le_succ hn)
    exact ⟨left', by simp [moreItems, char_self, hitem, hmore], hleft'⟩

/-- The items of a field are read as what they spell, if what follows does not go on with them. -/
theorem items_text {u : Unit} {is : List Item} {t rest : List Char} (h : FieldText u is t)
    (hrest : Ends ['-', '/', ','] rest) : items u (t ++ rest) = some (is, skipBlanks rest) := by
  obtain ⟨i, js, as, t₁, t₂, bs, rfl, rfl, has, hbs, hfirst, hi, hjs⟩ := h
  have hbehind := hrest.blanks_append hbs
  obtain ⟨left, hitem, hleft⟩ := item_text hi (hjs.ends hbehind)
  obtain ⟨left', hmore, hleft'⟩ := moreItems_text hjs hbehind hleft (hjs.length_le_left hleft)
  -- the blanks of the field are skipped, none of the first item
  have hskip : skipBlanks (as ++ (t₁ ++ (t₂ ++ bs)) ++ rest) = t₁ ++ (t₂ ++ (bs ++ rest)) := by
    simp only [List.append_assoc]
    rw [skipBlanks_blanks_append has]
    cases t₁ with
    | nil =>
      obtain ⟨c, cs, hnil, -⟩ := hi.begins []
      cases hnil
    | cons c t₁ => exact skipBlanks_cons (hfirst c rfl) _
  simp only [items, hskip, hitem, hmore, hleft'.skipBlanks, skipBlanks_blanks_append hbs,
    Option.bind_eq_bind, Option.bind_some]
  rfl

/-! ### Fields -/

/-- A field begins, behind its blanks, with the character of a part. -/
theorem begins_of_field {u : Unit} {ns : List Nat} {cs rest : List Char}
    (h : field u cs = some (ns, rest)) : ∃ c ds, skipBlanks cs = c :: ds ∧ begins c = true := by
  unfold field items at h
  obtain ⟨⟨is, cs₁⟩, his, -⟩ := Option.bind_eq_some_iff.mp h
  obtain ⟨⟨i, cs₂⟩, hi, -⟩ := Option.bind_eq_some_iff.mp his
  obtain ⟨t, hcs, ht⟩ := exists_of_item hi
  have hbegins := ht.begins cs₂
  rwa [← hcs, skipBlanks_skipBlanks] at hbegins

/-- A text that is a whole field is read as that field also when something follows that does not go
on with it. -/
theorem field_append {u : Unit} {ns : List Nat} {t rest : List Char}
    (h : field u t = some (ns, [])) (hrest : Ends ['-', '/', ','] rest) :
    field u (t ++ rest) = some (ns, skipBlanks rest) := by
  unfold field at h ⊢
  obtain ⟨⟨is, cs₁⟩, his, h⟩ := Option.bind_eq_some_iff.mp h
  obtain ⟨ns', hns, h⟩ := Option.bind_eq_some_iff.mp h
  obtain ⟨rfl, rfl⟩ := Prod.mk.inj (Option.some.inj h)
  obtain ⟨t', rfl, ht⟩ := exists_of_items his
  rw [List.append_nil, items_text ht hrest]
  simp only [hns, Option.bind_eq_bind, Option.bind_some]
  rfl

end Courier.Cron

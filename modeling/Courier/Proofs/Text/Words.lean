import Courier.Text.Blank
import Mathlib.Data.List.TakeWhile

/-!
Trimmed texts and their words.

Blanks are those that trimming takes off and that separate words; they are not only the space.

Trimming takes nothing but blanks off the ends of a text (`exists_trimChars`), so a text that begins
and ends visibly stays as it is (`trimChars_of_ends`), whatever blanks stand inside of it.  What has
been trimmed begins and ends visibly, and so stays as it is (`trimChars_trimChars`).

Words are read one after the other: in front of a word stand blanks, behind it the text ends or a
blank follows (`exists_of_wordsFrom`).  Blanks in front of a text and behind it make no words
(`wordsFrom_blanks_append`, `wordsFrom_append_blanks`).

Main statement: a text has the same words before and after it is trimmed (`words_trim`).
-/

namespace Courier.Text

/-- Whether there is nothing but blanks. -/
def Blanks (cs : List Char) : Prop := ∀ c ∈ cs, isBlank c = true

/-- Whether a text begins with a blank, unless it is empty. -/
def Breaks (cs : List Char) : Prop := ∀ c, cs.head? = some c → isBlank c = true

/-! ### Trimming -/

theorem trimEnd_cons_of_visible {c : Char} (h : isBlank c = false) (cs : List Char) :
    trimEnd (c :: cs) = c :: trimEnd cs := by
  rw [trimEnd]
  split
  · rename_i hrest
    rw [h, hrest]
    rfl
  · rfl

theorem trimEnd_concat {c : Char} (h : isBlank c = false) (cs : List Char) :
    trimEnd (cs ++ [c]) = cs ++ [c] := by
  induction cs with
  | nil => exact trimEnd_cons_of_visible h []
  | cons d cs ih =>
    rw [List.cons_append, trimEnd, ih]
    split
    · rename_i hnil
      simp at hnil
    · rfl

theorem trimEnd_trimEnd (cs : List Char) : trimEnd (trimEnd cs) = trimEnd cs := by
  induction cs with
  | nil => rfl
  | cons c cs ih =>
    by_cases hc : isBlank c = true
    · rcases hrest : trimEnd cs with - | ⟨d, ds⟩
      · simp [trimEnd, hrest, hc]
      · have hcs : trimEnd (c :: cs) = c :: d :: ds := by rw [trimEnd, hrest]
        rw [hrest] at ih
        rw [hcs, trimEnd, ih]
    · have hvisible : isBlank c = false := by simpa using hc
      rw [trimEnd_cons_of_visible hvisible, trimEnd_cons_of_visible hvisible, ih]

theorem exists_trimEnd (cs : List Char) : ∃ bs, cs = trimEnd cs ++ bs ∧ Blanks bs := by
  induction cs with
  | nil => exact ⟨[], rfl, by simp [Blanks]⟩
  | cons c cs ih =>
    obtain ⟨bs, hcs, hbs⟩ := ih
    rw [trimEnd]
    -- all that follows is blank, and then the character may be; or it stays
    split
    · rename_i hnil
      rw [hnil, List.nil_append] at hcs
      subst hcs
      split
      · rename_i hc
        exact ⟨c :: cs, rfl, List.forall_mem_cons.mpr ⟨hc, hbs⟩⟩
      · exact ⟨cs, rfl, hbs⟩
    · exact ⟨bs, congrArg (c :: ·) hcs, hbs⟩

/-- A text is its trimmed text between blanks. -/
theorem exists_trimChars (cs : List Char) :
    ∃ as bs, cs = as ++ (trimChars cs ++ bs) ∧ Blanks as ∧ Blanks bs := by
  obtain ⟨bs, hrest, hbs⟩ := exists_trimEnd (cs.dropWhile isBlank)
  refine ⟨cs.takeWhile isBlank, bs, ?_, fun c hc => List.mem_takeWhile_imp hc, hbs⟩
  rw [trimChars, ← hrest, List.takeWhile_append_dropWhile]

/-- A trimmed text begins with a visible character, behind which the end is trimmed. -/
theorem exists_of_trimChars {c : Char} {cs rest : List Char} (h : trimChars cs = c :: rest) :
    isBlank c = false ∧ ∃ ds, rest = trimEnd ds := by
  rcases hfront : cs.dropWhile isBlank with - | ⟨d, ds⟩
  · simp [trimChars, hfront, trimEnd] at h
  · have hd : isBlank d = false := by
      have hhead := List.head?_dropWhile_not isBlank cs
      rw [hfront] at hhead
      simpa using hhead
    rw [trimChars, hfront, trimEnd_cons_of_visible hd] at h
    obtain ⟨rfl, rfl⟩ := List.cons.inj h
    exact ⟨hd, ds, rfl⟩

theorem trimChars_trimChars (cs : List Char) : trimChars (trimChars cs) = trimChars cs := by
  rcases htrim : trimChars cs with - | ⟨c, rest⟩
  · rfl
  · obtain ⟨hc, ds, rfl⟩ := exists_of_trimChars htrim
    rw [trimChars, List.dropWhile_cons_of_neg (by simp [hc]), trimEnd_cons_of_visible hc,
      trimEnd_trimEnd]

/-- A text that neither begins nor ends with a blank is trimmed. -/
theorem trimChars_of_ends {cs : List Char} (hhead : ∀ c, cs.head? = some c → isBlank c = false)
    (hlast : ∀ c, cs.getLast? = some c → isBlank c = false) : trimChars cs = cs := by
  rcases cs with - | ⟨c, rest⟩
  · rfl
  · have hc : isBlank c = false := hhead c rfl
    have hd := hlast _ (List.getLast?_eq_some_getLast (List.cons_ne_nil c rest))
    rw [trimChars, List.dropWhile_cons_of_neg (by simp [hc]),
      ← List.dropLast_concat_getLast (List.cons_ne_nil c rest), trimEnd_concat hd]

/-- A text between two visible characters is trimmed. -/
theorem trimChars_fenced {c d : Char} (hc : isBlank c = false) (hd : isBlank d = false)
    (cs : List Char) : trimChars (c :: (cs ++ [d])) = c :: (cs ++ [d]) := by
  refine trimChars_of_ends (fun a ha => ?_) fun a ha => ?_
  · obtain rfl := Option.some.inj ha
    exact hc
  · rw [← List.cons_append, List.getLast?_concat] at ha
    obtain rfl := Option.some.inj ha
    exact hd

/-! ### Words -/

theorem wordsFrom_blanks_append {bs : List Char} (h : Blanks bs) (cs : List Char) :
    wordsFrom [] (bs ++ cs) = wordsFrom [] cs := by
  induction bs with
  | nil => rfl
  | cons b bs ih =>
    obtain ⟨hb, hbs⟩ := List.forall_mem_cons.mp h
    rw [List.cons_append, wordsFrom, if_pos hb]
    exact ih hbs

theorem wordsFrom_append_blanks {bs : List Char} (h : Blanks bs) (word cs : List Char) :
    wordsFrom word (cs ++ bs) = wordsFrom word cs := by
  induction cs generalizing word with
  | nil =>
    rcases bs with - | ⟨b, bs⟩
    · rfl
    · obtain ⟨hb, hbs⟩ := List.forall_mem_cons.mp h
      have hrest : wordsFrom [] bs = [] := by simpa [wordsFrom] using wordsFrom_blanks_append hbs []
      rw [List.nil_append, wordsFrom, wordsFrom, hb, hrest]
      rfl
  | cons c cs ih =>
    rw [List.cons_append, wordsFrom, wordsFrom]
    simp only [ih]

/-- A word that has begun goes on to the next blank. -/
theorem wordsFrom_cons (c : Char) (word cs : List Char) :
    wordsFrom (c :: word) cs = ((c :: word).reverse ++ cs.takeWhile fun d => !isBlank d) ::
      wordsFrom [] (cs.dropWhile fun d => !isBlank d) := by
  induction cs generalizing c word with
  | nil => simp [wordsFrom]
  | cons d cs ih =>
    by_cases hd : isBlank d = true
    · simp [wordsFrom, hd]
    · rw [wordsFrom, if_neg hd, ih]
      simp [hd]

/-- A text without words has nothing but blanks. -/
theorem blanks_of_wordsFrom {cs : List Char} (h : wordsFrom [] cs = []) : Blanks cs := by
  induction cs with
  | nil => simp [Blanks]
  | cons c cs ih =>
    by_cases hc : isBlank c = true
    · rw [wordsFrom, if_pos hc] at h
      exact List.forall_mem_cons.mpr ⟨hc, ih h⟩
    · rw [wordsFrom, if_neg hc, wordsFrom_cons] at h
      cases h

/-- The first word of a text, with blanks in front of it and the rest of the text behind it. -/
theorem exists_of_wordsFrom {cs w : List Char} {ws : List (List Char)}
    (h : wordsFrom [] cs = w :: ws) :
    ∃ bs rest, cs = bs ++ (w ++ rest) ∧ Blanks bs ∧ (∀ c ∈ w, isBlank c = false) ∧ Breaks rest ∧
      wordsFrom [] rest = ws := by
  induction cs with
  | nil => cases h
  | cons c cs ih =>
    -- one blank more before the word, or the word begins here
    by_cases hc : isBlank c = true
    · rw [wordsFrom, if_pos hc] at h
      obtain ⟨bs, rest, rfl, hbs, hw⟩ := ih h
      exact ⟨c :: bs, rest, rfl, List.forall_mem_cons.mpr ⟨hc, hbs⟩, hw⟩
    · rw [wordsFrom, if_neg hc, wordsFrom_cons] at h
      obtain ⟨rfl, hws⟩ := List.cons.inj h
      refine ⟨[], cs.dropWhile fun d => !isBlank d, ?_, by simp [Blanks], ?_, ?_, hws⟩
      · simp [List.takeWhile_append_dropWhile]
      · intro d hd
        rcases List.mem_cons.mp hd with rfl | hd
        · simpa using hc
        · simpa using List.mem_takeWhile_imp hd
      · intro d hd
        have hhead := List.head?_dropWhile_not (fun d => !isBlank d) cs
        rw [hd] at hhead
        simpa using hhead

/-- Blanks around a text do not change its words. -/
theorem words_trim (s : String) : words (trim s) = words s := by
  obtain ⟨as, bs, hs, has, hbs⟩ := exists_trimChars s.toList
  rw [words, words, trim, String.toList_ofList, hs, wordsFrom_blanks_append has,
    wordsFrom_append_blanks hbs, ← hs]

end Courier.Text

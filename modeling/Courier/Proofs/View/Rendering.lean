import Courier.Proofs.Time.Stored
import Courier.Proofs.View.WellFormed
import Courier.View.Render

/-!
Renderings are well-formed HTML.

A rendering is made of escaped text and of elements (`Content.elements`), so what holds of escaped
text, of the elements and of two parts put together holds of the rendering
(`Content.html_of_elements`).  Both main statements are cases of this; `Composable` says which
properties it can be used for.

An escaped character is an entity or stands for itself (`escapeHtmlChar_cases`).  An element has
escaped text or another element inside, and the target of a link is escaped as well
(`target_escapeHtml`).

A newline is of no use inside an element, since chunks are cut at newlines.  Neither escaping nor a
tag makes one (`newline_mem_print`), so a newline in an element comes from a string that stands in
it (`newline_mem_element`).

Main statements: the rendering of any content is well-formed (`Content.html_wellFormed`), and
newlines stand outside its elements unless a title, a link target, a source or the name of a section
has one (`Content.html_level`).
-/

namespace Courier

namespace Html

/-! ### Escaped text -/

/-- The properties of texts that hold of escaped text and of what is composed of parts that have
them. -/
structure Composable (P : List Char → Prop) : Prop where
  text : ∀ cs, P (escapeHtml cs)
  append : ∀ x y, P x → P y → P (x ++ y)

/-- A character is written as an entity or stands for itself. -/
theorem escapeHtmlChar_cases (c : Char) :
    Entity (escapeHtmlChar c) ∨ escapeHtmlChar c = [c] ∧ ¬ Reserved c ∧ c ≠ '"' := by
  unfold escapeHtmlChar
  -- one of the four characters that are written as entities, or any other one
  split_ifs with hamp hlt hgt hquot
  · exact .inl .amp
  · exact .inl .lt
  · exact .inl .gt
  · exact .inl .quot
  · refine .inr ⟨rfl, ?_, hquot⟩
    rintro (h | h | h)
    · exact hamp h
    · exact hlt h
    · exact hgt h

theorem wellFormed_escapeHtmlChar (c : Char) : WellFormed (escapeHtmlChar c) := by
  rcases escapeHtmlChar_cases c with he | ⟨hself, hc, -⟩
  · simpa using WellFormed.entity he .nil
  · rw [hself]
    exact .char hc .nil

theorem level_escapeHtmlChar (c : Char) : Level (escapeHtmlChar c) := by
  rcases escapeHtmlChar_cases c with he | ⟨hself, -, -⟩
  · exact level_of_not_mem he.newline_not_mem
  · rw [hself]
    -- before the only character there is nothing
    intro before after heq
    rcases List.cons_eq_append_iff.mp heq with ⟨rfl, -⟩ | ⟨more, rfl, hmore⟩
    · exact .nil
    · simp at hmore

theorem wellFormed_escapeHtml (cs : List Char) : WellFormed (escapeHtml cs) := by
  induction cs with
  | nil => exact .nil
  | cons c cs ih => exact (wellFormed_escapeHtmlChar c).append ih

theorem level_escapeHtml (cs : List Char) : Level (escapeHtml cs) := by
  induction cs with
  | nil => exact level_of_not_mem List.not_mem_nil
  | cons c cs ih => exact (level_escapeHtmlChar c).append (wellFormed_escapeHtmlChar c) ih

theorem composable_wellFormed : Composable WellFormed where
  text := wellFormed_escapeHtml
  append := by
    intro x y hx hy
    exact hx.append hy

theorem composable_level : Composable fun cs => WellFormed cs ∧ Level cs where
  text := by
    intro cs
    exact ⟨wellFormed_escapeHtml cs, level_escapeHtml cs⟩
  append := by
    intro x y hx hy
    exact ⟨hx.1.append hy.1, hx.2.append hx.1 hy.2⟩

theorem target_escapeHtml (cs : List Char) : Target (escapeHtml cs) := by
  induction cs with
  | nil => exact .nil
  | cons c cs ih =>
    show Target (escapeHtmlChar c ++ escapeHtml cs)
    rcases escapeHtmlChar_cases c with he | ⟨hself, hc, hquot⟩
    · exact .entity he ih
    · rw [hself]
      exact .char hc hquot ih

/-- Escaping makes no newlines. -/
theorem newline_mem_of_escapeHtml {cs : List Char} (h : '\n' ∈ escapeHtml cs) : '\n' ∈ cs := by
  obtain ⟨c, hc, hmem⟩ := List.mem_flatMap.mp h
  rcases escapeHtmlChar_cases c with he | ⟨hself, -, -⟩
  · exact absurd hmem he.newline_not_mem
  · rw [hself] at hmem
    rwa [List.mem_singleton.mp hmem]

/-! ### Elements -/

open Markup

theorem wellFormed_bold {ms : List Markup} (h : WellFormed (print ms)) :
    WellFormed (print (bold ms)) := by
  simpa [bold, printPiece] using WellFormed.element .bold h .nil

theorem wellFormed_italic {ms : List Markup} (h : WellFormed (print ms)) :
    WellFormed (print (italic ms)) := by
  simpa [italic, printPiece] using WellFormed.element .italic h .nil

theorem wellFormed_link (target title : String) : WellFormed (print (link target title)) := by
  have h := WellFormed.element (.link (target_escapeHtml target.toList))
    (wellFormed_escapeHtml title.toList) .nil
  simpa [link, run, printPiece] using h

/-- Renderings with a run of text between them. -/
theorem Composable.separated {P : List Char → Prop} (hP : Composable P) (between : String)
    {ms : List (List Markup)} (h : ∀ m ∈ ms, P (print m)) : P (print (separated between ms)) := by
  induction ms with
  | nil => exact hP.text []
  | cons m ms ih =>
    have hm : P (print m) := h m List.mem_cons_self
    cases ms with
    | nil => exact hm
    | cons m' ms =>
      have hrest := ih fun n hn => h n (List.mem_cons_of_mem _ hn)
      show P (print (m ++ run between :: Markup.separated between (m' :: ms)))
      rw [print_append, print_cons]
      exact hP.append _ _ hm (hP.append _ _ (hP.text _) hrest)

/-- Renderings, each behind a run of text. -/
theorem Composable.led {P : List Char → Prop} (hP : Composable P) (lead : String)
    {ms : List (List Markup)} (h : ∀ m ∈ ms, P (print m)) :
    P (print (ms.flatMap fun m => run lead :: m)) := by
  induction ms with
  | nil => exact hP.text []
  | cons m ms ih =>
    have hrest := ih fun n hn => h n (List.mem_cons_of_mem _ hn)
    rw [List.flatMap_cons, print_append, print_cons]
    exact hP.append _ _ (hP.append _ _ (hP.text _) (h m List.mem_cons_self)) hrest

end Html

/-! ### Content -/

namespace Content

open Markup Html

/-- The element on the origin of an article, if anything is known of it. -/
def originElement (a : Article) : List (List Markup) :=
  match origin a with
  | [] => []
  | parts => [italic (separated " · " (parts.map fun p => [run p]))]

/-- The sections of a digest that are shown. -/
def shown (sections : List (String × List Article)) : List (String × List Article) :=
  sections.filter fun s => !s.2.isEmpty

/-- The elements of the content, in order. -/
def elements : Content → List (List Markup)
  | status _ _ | list _ => []
  | article a => headline a :: originElement a
  | digest sections =>
    (shown sections).flatMap fun s => bold [run s.1] :: s.2.map fun a => link a.link a.title

/-- The strings of the data that stand in elements. -/
def elementTexts : Content → List String
  | status _ _ | list _ => []
  | article a => a.title :: a.link :: a.source.toList
  | digest sections => (shown sections).flatMap fun s => s.1 :: s.2.flatMap fun a => [a.title, a.link]

variable {P : List Char → Prop}

theorem originLine_eq (a : Article) :
    originLine a = (originElement a).flatMap fun m => run "\n" :: m := by
  unfold originLine originElement
  rcases origin a with - | ⟨p, parts⟩
  · rfl
  · exact (List.append_nil _).symm

theorem body_of_text (hP : Composable P) (a : Article) : P (print (body a)) := by
  unfold body
  split
  · exact hP.text []
  · split
    · exact hP.text []
    · simpa [print, run, printPiece] using hP.append _ _ (hP.text _) (hP.text _)

theorem sectionBlock_of_elements (hP : Composable P) (name : String) (articles : List Article)
    (hname : P (print (bold [run name])))
    (h : ∀ m ∈ articles.map fun a => link a.link a.title, P (print m)) :
    P (print (sectionBlock name articles)) := by
  have hlines := hP.led "\n• " h
  rw [List.flatMap_map] at hlines
  unfold sectionBlock
  rw [print_append]
  exact hP.append _ _ hname hlines

/-- What holds of escaped text and of the elements of the content holds of its rendering. -/
theorem html_of_elements (hP : Composable P) (c : Content) (h : ∀ m ∈ c.elements, P (print m)) :
    P c.html := by
  unfold html
  cases c with
  | status sign t =>
    show P (print [run sign, run t])
    simpa [print, run, printPiece] using hP.append _ _ (hP.text sign.toList) (hP.text t.toList)
  | list items =>
    apply hP.separated
    intro m hm
    obtain ⟨i, -, rfl⟩ := List.mem_map.mp hm
    simpa [print, run, printPiece] using hP.append _ _ (hP.text _) (hP.text i.toList)
  | article a =>
    -- a headline, the line with its origin, and the body, of which the last has no elements
    have horigin : P (print (originLine a)) := by
      rw [originLine_eq]
      exact hP.led "\n" fun m hm => h m (List.mem_cons_of_mem _ hm)
    show P (print (headline a ++ originLine a ++ body a))
    rw [print_append, print_append]
    exact hP.append _ _ (hP.append _ _ (h _ List.mem_cons_self) horigin) (body_of_text hP a)
  | digest sections =>
    apply hP.separated
    intro m hm
    obtain ⟨s, hs, rfl⟩ := List.mem_map.mp hm
    apply sectionBlock_of_elements hP
    · exact h _ (List.mem_flatMap.mpr ⟨s, hs, List.mem_cons_self⟩)
    · intro m hm
      exact h m (List.mem_flatMap.mpr ⟨s, hs, List.mem_cons_of_mem _ hm⟩)

theorem element_wellFormed {c : Content} {m : List Markup} (hm : m ∈ c.elements) :
    WellFormed (print m) := by
  cases c with
  | status sign t => cases hm
  | list items => cases hm
  | article a =>
    rcases List.mem_cons.mp hm with rfl | hm
    · -- the link in bold, and the origin in italics if there is any
      exact wellFormed_bold (wellFormed_link a.link a.title)
    · unfold originElement at hm
      split at hm
      · cases hm
      · obtain rfl := List.mem_singleton.mp hm
        apply wellFormed_italic
        apply composable_wellFormed.separated
        intro m hm
        obtain ⟨p, -, rfl⟩ := List.mem_map.mp hm
        simpa [print, run, printPiece] using wellFormed_escapeHtml p.toList
  | digest sections =>
    obtain ⟨s, -, hm⟩ := List.mem_flatMap.mp hm
    rcases List.mem_cons.mp hm with rfl | hm
    · -- the name in bold, or one of the links
      apply wellFormed_bold
      simpa [print, run, printPiece] using wellFormed_escapeHtml s.1.toList
    · obtain ⟨a, -, rfl⟩ := List.mem_map.mp hm
      exact wellFormed_link a.link a.title

/-- The rendering of any content is well-formed. -/
theorem html_wellFormed (c : Content) : WellFormed c.html :=
  html_of_elements composable_wellFormed c fun _ => element_wellFormed

/-! ### Newlines in elements -/

/-- No newline comes of escaping or of a tag. -/
theorem newline_mem_print {ms : List Markup} (h : '\n' ∈ print ms) :
    ∃ cs, (text cs ∈ ms ∨ openLink cs ∈ ms) ∧ '\n' ∈ cs := by
  obtain ⟨m, hm, hmem⟩ := List.mem_flatMap.mp h
  cases m with
  | text cs => exact ⟨cs, .inl hm, newline_mem_of_escapeHtml hmem⟩
  | openLink target =>
    have htarget : '\n' ∈ escapeHtml target := by simpa [printPiece] using hmem
    exact ⟨target, .inr hm, newline_mem_of_escapeHtml htarget⟩
  | openBold => simp [printPiece] at hmem
  | closeBold => simp [printPiece] at hmem
  | openItalic => simp [printPiece] at hmem
  | closeItalic => simp [printPiece] at hmem
  | closeLink => simp [printPiece] at hmem

theorem mem_separated {between : String} {ms : List (List Markup)} {x : Markup}
    (h : x ∈ separated between ms) : x = run between ∨ ∃ m ∈ ms, x ∈ m := by
  induction ms with
  | nil => cases h
  | cons m ms ih =>
    cases ms with
    | nil => exact .inr ⟨m, List.mem_cons_self, h⟩
    | cons m' ms =>
      rcases List.mem_append.mp h with h | h
      · exact .inr ⟨m, List.mem_cons_self, h⟩
      · rcases List.mem_cons.mp h with h | h
        · exact .inl h
        · rcases ih h with h | ⟨n, hn, hx⟩
          · exact .inl h
          · exact .inr ⟨n, List.mem_cons_of_mem _ hn, hx⟩

theorem newline_mem_link {target title : String} (h : '\n' ∈ print (link target title)) :
    ∃ s ∈ [title, target], '\n' ∈ s.toList := by
  obtain ⟨cs, hcs, hmem⟩ := newline_mem_print h
  have hcases : cs = title.toList ∨ cs = target.toList := by simpa [link, run] using hcs
  rcases hcases with rfl | rfl
  · exact ⟨title, List.mem_cons_self, hmem⟩
  · exact ⟨target, List.mem_cons_of_mem _ List.mem_cons_self, hmem⟩

theorem newline_mem_originElement {a : Article} {m : List Markup} (hm : m ∈ originElement a)
    (h : '\n' ∈ print m) : ∃ s ∈ a.source.toList, '\n' ∈ s.toList := by
  unfold originElement at hm
  split at hm
  · cases hm
  obtain rfl := List.mem_singleton.mp hm
  obtain ⟨cs, hcs, hmem⟩ := newline_mem_print h
  have hpart : ∃ p ∈ origin a, cs = p.toList := by
    -- a part of the origin, or what stands between two of them
    rcases hcs with hcs | hcs
    · have hsep : text cs ∈ separated " · " ((origin a).map fun p => [run p]) := by
        simpa [italic] using hcs
      rcases mem_separated hsep with heq | ⟨n, hn, hx⟩
      · -- the sign between the parts has no newline
        obtain rfl := text.inj heq
        exact absurd hmem (by decide)
      · obtain ⟨p, hp, rfl⟩ := List.mem_map.mp hn
        exact ⟨p, hp, text.inj (List.mem_singleton.mp hx)⟩
    · have hsep : openLink cs ∈ separated " · " ((origin a).map fun p => [run p]) := by
        simpa [italic] using hcs
      rcases mem_separated hsep with heq | ⟨n, hn, hx⟩
      · cases heq
      · obtain ⟨p, -, rfl⟩ := List.mem_map.mp hn
        cases List.mem_singleton.mp hx
  obtain ⟨p, hp, rfl⟩ := hpart
  -- the source, or the date, which is written with digits and dashes
  rcases List.mem_append.mp hp with hp | hp
  · exact ⟨p, hp, hmem⟩
  · have hdate : ∃ t, a.publishedAt = some t ∧ t.dateText = p := by simpa using hp
    obtain ⟨t, -, rfl⟩ := hdate
    exact absurd hmem t.date.newline_not_mem_text

/-- A newline in an element is one of a string that stands in it. -/
theorem newline_mem_element {c : Content} {m : List Markup} (hm : m ∈ c.elements)
    (h : '\n' ∈ print m) : ∃ s ∈ c.elementTexts, '\n' ∈ s.toList := by
  cases c with
  | status sign t => cases hm
  | list items => cases hm
  | article a =>
    rcases List.mem_cons.mp hm with rfl | hm
    · have hlink : '\n' ∈ print (link a.link a.title) := by
        simpa [headline, bold, printPiece] using h
      obtain ⟨s, hs, hmem⟩ := newline_mem_link hlink
      exact ⟨s, List.mem_append_left a.source.toList hs, hmem⟩
    · obtain ⟨s, hs, hmem⟩ := newline_mem_originElement hm h
      exact ⟨s, List.mem_append_right [a.title, a.link] hs, hmem⟩
  | digest sections =>
    obtain ⟨s, hs, hm⟩ := List.mem_flatMap.mp hm
    rcases List.mem_cons.mp hm with rfl | hm
    · obtain ⟨cs, hcs, hmem⟩ := newline_mem_print h
      obtain rfl : cs = s.1.toList := by simpa [bold, run] using hcs
      exact ⟨s.1, List.mem_flatMap.mpr ⟨s, hs, List.mem_cons_self⟩, hmem⟩
    · obtain ⟨a, ha, rfl⟩ := List.mem_map.mp hm
      obtain ⟨t, ht, hmem⟩ := newline_mem_link h
      have hshown : t ∈ s.2.flatMap fun a => [a.title, a.link] :=
        List.mem_flatMap.mpr ⟨a, ha, ht⟩
      exact ⟨t, List.mem_flatMap.mpr ⟨s, hs, List.mem_cons_of_mem _ hshown⟩, hmem⟩

/-- Newlines stand outside the elements of a rendering if no string in an element has one. -/
theorem html_level (c : Content) (h : ∀ s ∈ c.elementTexts, '\n' ∉ s.toList) : Level c.html := by
  refine (html_of_elements composable_level c ?_).2
  intro m hm
  refine ⟨element_wellFormed hm, level_of_not_mem ?_⟩
  intro hnewline
  obtain ⟨s, hs, hmem⟩ := newline_mem_element hm hnewline
  exact h s hs hmem

end Content

end Courier

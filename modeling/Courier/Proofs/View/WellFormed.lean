import Mathlib.Data.List.Basic

/-!
Well-formed HTML.

`Html.WellFormed` is the grammar of what the notification service accepts: characters, the four
entities, and bold, italic and link elements, which nest.  Only links have an attribute, their
target.

A text is well-formed in one way at most, since its first character says what comes first: a
character for itself, an entity, or an opening tag.  One part after the other can be taken off
(`peel_char`, `peel_entity`, `peel_opening`), also when something follows that begins with a closing
tag (`Ends`), as it does inside an element.  So a well-formed beginning can be taken off a
well-formed text and leaves a well-formed text (`Html.WellFormed.append_iff`), and so can newlines
at the end (`Html.WellFormed.of_concat_newline`).

A text is `Html.Level` if what comes before a newline is well-formed on its own, that is, if no
newline stands inside an element.  Cut at newlines, a level text falls into well-formed parts.
-/

namespace Courier.Html

/-! ### The grammar -/

/-- The characters that do not stand for themselves. -/
def Reserved (c : Char) : Prop := c = '&' ∨ c = '<' ∨ c = '>'

/-- The ways to write a reserved character or a quotation mark. -/
inductive Entity : List Char → Prop
  | amp : Entity ['&', 'a', 'm', 'p', ';']
  | lt : Entity ['&', 'l', 't', ';']
  | gt : Entity ['&', 'g', 't', ';']
  | quot : Entity ['&', 'q', 'u', 'o', 't', ';']

/-- Link targets as they stand between quotation marks. -/
inductive Target : List Char → Prop
  | nil : Target []
  | char {c : Char} {cs : List Char} (hc : ¬ Reserved c) (hq : c ≠ '"') (h : Target cs) :
      Target (c :: cs)
  | entity {e cs : List Char} (he : Entity e) (h : Target cs) : Target (e ++ cs)

/-- The opening and the closing tag of an element. -/
inductive Tags : List Char → List Char → Prop
  | bold : Tags ['<', 'b', '>'] ['<', '/', 'b', '>']
  | italic : Tags ['<', 'i', '>'] ['<', '/', 'i', '>']
  | link {target : List Char} (ht : Target target) :
      Tags (['<', 'a', ' ', 'h', 'r', 'e', 'f', '=', '"'] ++ target ++ ['"', '>'])
        ['<', '/', 'a', '>']

/-- Texts in which every reserved character belongs to an entity or to the tag of an element, and
the elements are complete and nest. -/
inductive WellFormed : List Char → Prop
  | nil : WellFormed []
  | char {c : Char} {cs : List Char} (hc : ¬ Reserved c) (h : WellFormed cs) : WellFormed (c :: cs)
  | entity {e cs : List Char} (he : Entity e) (h : WellFormed cs) : WellFormed (e ++ cs)
  | element {opening closing inner cs : List Char} (ht : Tags opening closing)
      (hinner : WellFormed inner) (h : WellFormed cs) :
      WellFormed (opening ++ inner ++ closing ++ cs)

/-! ### Reading in one way only -/

theorem Entity.head {e : List Char} (he : Entity e) : ∃ r, e = '&' :: r := by
  cases he <;> exact ⟨_, rfl⟩

theorem Entity.last {e : List Char} (he : Entity e) : ∃ r, e = r ++ [';'] := by
  cases he with
  | amp => exact ⟨['&', 'a', 'm', 'p'], rfl⟩
  | lt => exact ⟨['&', 'l', 't'], rfl⟩
  | gt => exact ⟨['&', 'g', 't'], rfl⟩
  | quot => exact ⟨['&', 'q', 'u', 'o', 't'], rfl⟩

theorem Entity.newline_not_mem {e : List Char} (he : Entity e) : '\n' ∉ e := by
  cases he <;> decide

theorem Entity.unique {e e' x y : List Char} (he : Entity e) (he' : Entity e')
    (heq : e ++ x = e' ++ y) : e = e' ∧ x = y := by
  cases he <;> cases he' <;> simp_all

theorem Target.quote_not_mem {t : List Char} (ht : Target t) : '"' ∉ t := by
  induction ht with
  | nil => exact List.not_mem_nil
  | char _ hq _ ih =>
    rw [List.mem_cons, not_or]
    exact ⟨hq.symm, ih⟩
  | entity he _ ih =>
    rw [List.mem_append, not_or]
    refine ⟨?_, ih⟩
    cases he <;> decide

/-- A target ends at the first quotation mark. -/
theorem Target.unique {t t' x y : List Char} (ht : Target t) (ht' : Target t')
    (heq : t ++ '"' :: x = t' ++ '"' :: y) : t = t' ∧ x = y := by
  rcases List.append_eq_append_iff.mp heq with ⟨more, rfl, hmore⟩ | ⟨more, rfl, hmore⟩
  · rcases List.cons_eq_append_iff.mp hmore with ⟨rfl, hxy⟩ | ⟨more', rfl, -⟩
    · exact ⟨(List.append_nil _).symm, (List.cons.inj hxy).2.symm⟩
    · exact absurd (List.mem_append_right _ List.mem_cons_self) ht'.quote_not_mem
  · rcases List.cons_eq_append_iff.mp hmore with ⟨rfl, hxy⟩ | ⟨more', rfl, -⟩
    · exact ⟨List.append_nil _, (List.cons.inj hxy).2⟩
    · exact absurd (List.mem_append_right _ List.mem_cons_self) ht.quote_not_mem

theorem Tags.opening_head {o c : List Char} (ht : Tags o c) :
    ∃ d r, o = '<' :: d :: r ∧ d ≠ '/' := by
  cases ht with
  | bold => exact ⟨'b', ['>'], rfl, by decide⟩
  | italic => exact ⟨'i', ['>'], rfl, by decide⟩
  | link _ => exact ⟨'a', _, rfl, by decide⟩

theorem Tags.closing_head {o c : List Char} (ht : Tags o c) : ∃ r, c = '<' :: '/' :: r := by
  cases ht <;> exact ⟨_, rfl⟩

theorem Tags.closing_last {o c : List Char} (ht : Tags o c) : ∃ r, c = r ++ ['>'] := by
  cases ht with
  | bold => exact ⟨['<', '/', 'b'], rfl⟩
  | italic => exact ⟨['<', '/', 'i'], rfl⟩
  | link _ => exact ⟨['<', '/', 'a'], rfl⟩

theorem Tags.unique {o c o' c' x y : List Char} (ht : Tags o c) (ht' : Tags o' c')
    (heq : o ++ x = o' ++ y) : o = o' ∧ c = c' ∧ x = y := by
  -- the first two characters tell which tags these are
  cases ht with
  | bold => cases ht' <;> simp_all
  | italic => cases ht' <;> simp_all
  | link h =>
    cases ht' with
    | bold => simp at heq
    | italic => simp at heq
    | link h' =>
      simp only [List.append_assoc, List.cons_append, List.nil_append, List.cons.injEq,
        true_and] at heq
      obtain ⟨rfl, hrest⟩ := h.unique h' heq
      exact ⟨rfl, rfl, (List.cons.inj hrest).2⟩

/-- What can follow well-formed HTML: the end of the text, or a closing tag. -/
def Ends (cs : List Char) : Prop := cs = [] ∨ ∃ r, cs = '<' :: '/' :: r

namespace WellFormed

variable {y v z : List Char}

/-- Well-formed HTML does not begin with a closing tag. -/
theorem eq_nil_of_closing (hy : WellFormed y) (heq : y ++ v = '<' :: '/' :: z) : y = [] := by
  -- all that the text could begin with is no closing tag
  cases hy with
  | nil => rfl
  | char hc _ =>
    obtain ⟨rfl, -⟩ := List.cons.inj heq
    exact absurd (.inr (.inl rfl)) hc
  | entity he _ =>
    obtain ⟨r, rfl⟩ := he.head
    simp at heq
  | element ht _ _ =>
    obtain ⟨d, r, rfl, hd⟩ := ht.opening_head
    simp only [List.cons_append, List.cons.injEq, true_and] at heq
    exact absurd heq.1 hd

/-- A character that stands for itself is taken off well-formed HTML. -/
theorem peel_char (hy : WellFormed y) (hv : Ends v) {c : Char} (hc : ¬ Reserved c)
    (heq : y ++ v = c :: z) : ∃ y', y = c :: y' ∧ WellFormed y' ∧ y' ++ v = z := by
  -- an empty text is followed by a closing tag or by nothing, and neither is this character
  cases hy with
  | nil =>
    rcases hv with rfl | ⟨r, rfl⟩
    · cases heq
    · obtain ⟨rfl, -⟩ := List.cons.inj heq
      exact absurd (.inr (.inl rfl)) hc
  | char _ h =>
    obtain ⟨rfl, rfl⟩ := List.cons.inj heq
    exact ⟨_, rfl, h, rfl⟩
  | entity he _ =>
    obtain ⟨r, rfl⟩ := he.head
    obtain ⟨rfl, -⟩ := List.cons.inj heq
    exact absurd (.inl rfl) hc
  | element ht _ _ =>
    obtain ⟨d, r, rfl, -⟩ := ht.opening_head
    obtain ⟨rfl, -⟩ := List.cons.inj heq
    exact absurd (.inr (.inl rfl)) hc

/-- An entity is taken off well-formed HTML. -/
theorem peel_entity (hy : WellFormed y) (hv : Ends v) {e : List Char} (he : Entity e)
    (heq : y ++ v = e ++ z) : ∃ y', y = e ++ y' ∧ WellFormed y' ∧ y' ++ v = z := by
  cases hy with
  | nil =>
    obtain ⟨r, rfl⟩ := he.head
    rcases hv with rfl | ⟨r', rfl⟩
    · cases heq
    · simp at heq
  | char hc _ =>
    obtain ⟨r, rfl⟩ := he.head
    obtain ⟨rfl, -⟩ := List.cons.inj heq
    exact absurd (.inl rfl) hc
  | entity he' h =>
    rw [List.append_assoc] at heq
    obtain ⟨rfl, hrest⟩ := he'.unique he heq
    exact ⟨_, rfl, h, hrest⟩
  | element ht _ _ =>
    obtain ⟨d, r, rfl, -⟩ := ht.opening_head
    obtain ⟨r', rfl⟩ := he.head
    simp at heq

/-- An opening tag is taken off well-formed HTML. -/
theorem peel_opening (hy : WellFormed y) (hv : Ends v) {o c : List Char} (ht : Tags o c)
    (heq : y ++ v = o ++ z) :
    ∃ inner y', y = o ++ inner ++ c ++ y' ∧ WellFormed inner ∧ WellFormed y' ∧
      inner ++ (c ++ (y' ++ v)) = z := by
  cases hy with
  | nil =>
    obtain ⟨d, r, rfl, hd⟩ := ht.opening_head
    rcases hv with rfl | ⟨r', rfl⟩
    · cases heq
    · simp only [List.nil_append, List.cons_append, List.cons.injEq, true_and] at heq
      exact absurd heq.1.symm hd
  | char hc _ =>
    obtain ⟨d, r, rfl, -⟩ := ht.opening_head
    obtain ⟨rfl, -⟩ := List.cons.inj heq
    exact absurd (.inr (.inl rfl)) hc
  | entity he _ =>
    obtain ⟨d, r, rfl, -⟩ := ht.opening_head
    obtain ⟨r', rfl⟩ := he.head
    simp at heq
  | element ht' hinner h =>
    simp only [List.append_assoc] at heq
    obtain ⟨rfl, rfl, heq⟩ := ht'.unique ht heq
    exact ⟨_, _, rfl, hinner, h, heq⟩

/-- Well-formed HTML is taken off well-formed HTML. -/
theorem peel {x : List Char} (hx : WellFormed x) (hy : WellFormed y) (hv : Ends v)
    (heq : y ++ v = x ++ z) : ∃ y', y = x ++ y' ∧ WellFormed y' ∧ y' ++ v = z := by
  induction hx generalizing y v z with
  | nil => exact ⟨y, rfl, hy, heq⟩
  | char hc _ ih =>
    obtain ⟨y₁, rfl, hy₁, heq₁⟩ := hy.peel_char hv hc heq
    obtain ⟨y₂, rfl, hy₂, heq₂⟩ := ih hy₁ hv heq₁
    exact ⟨y₂, rfl, hy₂, heq₂⟩
  | entity he _ ih =>
    rw [List.append_assoc] at heq
    obtain ⟨y₁, rfl, hy₁, heq₁⟩ := hy.peel_entity hv he heq
    obtain ⟨y₂, rfl, hy₂, heq₂⟩ := ih hy₁ hv heq₁
    exact ⟨y₂, (List.append_assoc _ _ _).symm, hy₂, heq₂⟩
  | @element o c inner cs ht hinner _ ihinner ih =>
    simp only [List.append_assoc] at heq
    obtain ⟨inner', y₁, rfl, hinner', hy₁, heq₁⟩ := hy.peel_opening hv ht heq
    -- what is left of the inner text begins with a closing tag, so nothing is left of it
    have hends : Ends (c ++ (y₁ ++ v)) := by
      obtain ⟨r, rfl⟩ := ht.closing_head
      exact .inr ⟨_, rfl⟩
    obtain ⟨left, rfl, hleft, heq₂⟩ := ihinner hinner' hends heq₁
    obtain rfl : left = [] := by
      obtain ⟨r, rfl⟩ := ht.closing_head
      exact hleft.eq_nil_of_closing heq₂
    obtain ⟨y₂, rfl, hy₂, heq₃⟩ := ih hy₁ hv (List.append_cancel_left heq₂)
    exact ⟨y₂, by simp, hy₂, heq₃⟩

/-! ### Composing and taking apart -/

theorem append {x y : List Char} (hx : WellFormed x) (hy : WellFormed y) : WellFormed (x ++ y) := by
  induction hx with
  | nil => exact hy
  | char hc _ ih => exact .char hc ih
  | entity he _ ih =>
    rw [List.append_assoc]
    exact .entity he ih
  | element ht hinner _ _ ih =>
    rw [List.append_assoc]
    exact .element ht hinner ih

/-- Behind well-formed HTML a text is well-formed if and only if it is so on its own. -/
theorem append_iff {x y : List Char} (hx : WellFormed x) : WellFormed (x ++ y) ↔ WellFormed y := by
  constructor
  · intro h
    obtain ⟨y', heq, hy', -⟩ := hx.peel h (.inl rfl) (List.append_nil _)
    rwa [List.append_cancel_left heq]
  · exact hx.append

theorem not_reserved_newline : ¬ Reserved '\n' := by
  rintro (h | h | h) <;> cases h

theorem newline_cons_iff {cs : List Char} : WellFormed ('\n' :: cs) ↔ WellFormed cs :=
  append_iff (x := ['\n']) (.char not_reserved_newline .nil)

/-- A newline at the end stands behind a part that ends with another character. -/
theorem concat_newline_cut {x rest cs : List Char} {d : Char} (hd : d ≠ '\n')
    (heq : cs ++ ['\n'] = (x ++ [d]) ++ rest) :
    ∃ rest', rest = rest' ++ ['\n'] ∧ cs = (x ++ [d]) ++ rest' := by
  rcases List.eq_nil_or_concat rest with rfl | ⟨rest', d', rfl⟩
  · rw [List.append_nil] at heq
    obtain ⟨-, hlast⟩ := List.append_inj' heq rfl
    exact absurd (List.singleton_inj.mp hlast).symm hd
  · rw [List.concat_eq_append, ← List.append_assoc] at heq
    obtain ⟨hcs, hlast⟩ := List.append_inj' heq rfl
    obtain rfl := List.singleton_inj.mp hlast
    exact ⟨rest', List.concat_eq_append, hcs⟩

/-- Newlines at the end can be left out, since no entity and no tag ends with one. -/
theorem of_concat_newline {cs : List Char} (h : WellFormed (cs ++ ['\n'])) : WellFormed cs := by
  generalize hx : cs ++ ['\n'] = x at h
  induction h generalizing cs with
  | nil => simp at hx
  | char hc _ ih =>
    -- the newline is the last character, or it comes later
    cases cs with
    | nil => exact .nil
    | cons d cs =>
      obtain ⟨rfl, hrest⟩ := List.cons.inj hx
      exact .char hc (ih hrest)
  | entity he _ ih =>
    obtain ⟨r, rfl⟩ := he.last
    obtain ⟨rest, rfl, rfl⟩ := concat_newline_cut (by decide) hx
    exact .entity he (ih rfl)
  | @element o c inner rest ht hinner _ _ ih =>
    obtain ⟨r, rfl⟩ := ht.closing_last
    rw [← List.append_assoc (o ++ inner)] at hx
    obtain ⟨rest', rfl, rfl⟩ := concat_newline_cut (by decide) hx
    rw [List.append_assoc _ r]
    exact .element ht hinner (ih rfl)

end WellFormed

/-! ### Newlines outside of elements -/

/-- Before every newline the text is well-formed. -/
def Level (cs : List Char) : Prop := ∀ before after, cs = before ++ '\n' :: after → WellFormed before

theorem level_of_not_mem {cs : List Char} (h : '\n' ∉ cs) : Level cs := by
  rintro before after rfl
  exact absurd (List.mem_append_right _ List.mem_cons_self) h

theorem Level.append {x y : List Char} (hx : Level x) (hwx : WellFormed x) (hy : Level y) :
    Level (x ++ y) := by
  intro before after heq
  rcases List.append_eq_append_iff.mp heq with ⟨more, rfl, hmore⟩ | ⟨more, rfl, hmore⟩
  · exact hwx.append (hy more after hmore)
  · rcases List.cons_eq_append_iff.mp hmore with ⟨rfl, -⟩ | ⟨more', rfl, -⟩
    · rwa [List.append_nil] at hwx
    · exact hx before more' rfl

end Courier.Html

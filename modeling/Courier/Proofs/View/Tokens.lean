import Courier.Proofs.View.Rendering

/-!
HTML as tokens.

`Html.tokens?` reads HTML character by character into runs of text, opening tags with their
attributes and closing tags.  It knows nothing of how the HTML was made, so it says what a reader of
the notification would see.  Text and the values of attributes stay as they are written;
`Html.unescape` takes entities for the characters that they stand for.

Escaped text has no character that begins or ends a tag, and none that ends a value
(`not_mem_escapeHtml`), so the reader stays in the text or in the value all along (`foldlM_text`,
`foldlM_value`).  What is printed piece by piece is read piece by piece, with the text since the
last tag carried along, as pieces of text side by side are one run (`read_print`).

Main statements: unescaping undoes escaping (`Html.unescape_escapeHtml`), and what was printed is
read as the tokens that were printed, with text and values escaped (`Html.tokens?_print`).
-/

namespace Courier.Html

/-! ### Reading -/

/-- What HTML consists of. -/
inductive Token
  | text (cs : List Char)
  | opening (name : List Char) (attributes : List (List Char × List Char))
  | closing (name : List Char)
deriving DecidableEq

/-- Where in HTML a reader is, with what has been read of the token there.

* `tag`: behind the beginning of a tag.
* `equals`: before the value of an attribute.
* `quoted`: behind the value of an attribute. -/
inductive Mode
  | text (run : List Char)
  | tag
  | closing (name : List Char)
  | opening (name : List Char)
  | key (name : List Char) (attributes : List (List Char × List Char)) (key : List Char)
  | equals (name : List Char) (attributes : List (List Char × List Char)) (key : List Char)
  | value (name : List Char) (attributes : List (List Char × List Char)) (key value : List Char)
  | quoted (name : List Char) (attributes : List (List Char × List Char))

/-- A reader of HTML, with the tokens read so far. -/
structure Reader where
  mode : Mode
  tokens : List Token

namespace Reader

/-- Reads a character. -/
def step : Reader → Char → Option Reader
  | ⟨.text run, ts⟩, c =>
    if c = '<' then some ⟨.tag, ts ++ [.text run]⟩ else some ⟨.text (run ++ [c]), ts⟩
  | ⟨.tag, ts⟩, c =>
    if c = '/' then some ⟨.closing [], ts⟩
    else if c.isAlpha then some ⟨.opening [c], ts⟩
    else none
  | ⟨.closing name, ts⟩, c =>
    if c = '>' then some ⟨.text [], ts ++ [.closing name]⟩ else some ⟨.closing (name ++ [c]), ts⟩
  | ⟨.opening name, ts⟩, c =>
    if c = '>' then some ⟨.text [], ts ++ [.opening name []]⟩
    else if c = ' ' then some ⟨.key name [] [], ts⟩
    else some ⟨.opening (name ++ [c]), ts⟩
  | ⟨.key name attributes key, ts⟩, c =>
    if c = '=' then some ⟨.equals name attributes key, ts⟩
    else some ⟨.key name attributes (key ++ [c]), ts⟩
  | ⟨.equals name attributes key, ts⟩, c =>
    if c = '"' then some ⟨.value name attributes key [], ts⟩ else none
  | ⟨.value name attributes key value, ts⟩, c =>
    if c = '"' then some ⟨.quoted name (attributes ++ [(key, value)]), ts⟩
    else some ⟨.value name attributes key (value ++ [c]), ts⟩
  | ⟨.quoted name attributes, ts⟩, c =>
    if c = '>' then some ⟨.text [], ts ++ [.opening name attributes]⟩
    else if c = ' ' then some ⟨.key name attributes [], ts⟩
    else none

/-- The tokens read, if no tag is left open at the end. -/
def finish : Reader → Option (List Token)
  | ⟨.text run, ts⟩ => some (ts ++ [.text run])
  | _ => none

end Reader

/-- The tokens of HTML: between two tags, before the first and behind the last there is a run of text,
which may be empty. -/
def tokens? (cs : List Char) : Option (List Token) :=
  (cs.foldlM Reader.step ⟨.text [], []⟩).bind Reader.finish

/-! ### Entities -/

/-- The text that is written with entities. -/
def unescape : List Char → List Char
  | '&' :: 'a' :: 'm' :: 'p' :: ';' :: cs => '&' :: unescape cs
  | '&' :: 'l' :: 't' :: ';' :: cs => '<' :: unescape cs
  | '&' :: 'g' :: 't' :: ';' :: cs => '>' :: unescape cs
  | '&' :: 'q' :: 'u' :: 'o' :: 't' :: ';' :: cs => '"' :: unescape cs
  | c :: cs => c :: unescape cs
  | [] => []

theorem unescape_cons {c : Char} (hc : c ≠ '&') (cs : List Char) :
    unescape (c :: cs) = c :: unescape cs := by
  conv_lhs => unfold unescape
  -- every entity begins with the sign that `c` is not
  split <;> simp_all

theorem unescape_escapeHtmlChar (c : Char) (cs : List Char) :
    unescape (escapeHtmlChar c ++ cs) = c :: unescape cs := by
  unfold escapeHtmlChar
  -- one of the four entities, or a character that begins none
  split_ifs with hamp hlt hgt hquot
  · subst hamp
    rfl
  · subst hlt
    rfl
  · subst hgt
    rfl
  · subst hquot
    rfl
  · exact unescape_cons hamp cs

/-- Escaping is undone, although the sign that begins an entity is itself escaped. -/
theorem unescape_escapeHtml (cs : List Char) : unescape (escapeHtml cs) = cs := by
  induction cs with
  | nil => rfl
  | cons c cs ih =>
    show unescape (escapeHtmlChar c ++ escapeHtml cs) = c :: cs
    rw [unescape_escapeHtmlChar, ih]

theorem escapeHtml_append (cs ds : List Char) :
    escapeHtml (cs ++ ds) = escapeHtml cs ++ escapeHtml ds := by
  simp [escapeHtml]

/-- No tag begins or ends in escaped text, and no value of an attribute ends there. -/
theorem not_mem_escapeHtml (cs : List Char) :
    '<' ∉ escapeHtml cs ∧ '>' ∉ escapeHtml cs ∧ '"' ∉ escapeHtml cs := by
  have hchar : ∀ c, '<' ∉ escapeHtmlChar c ∧ '>' ∉ escapeHtmlChar c ∧ '"' ∉ escapeHtmlChar c := by
    intro c
    -- an entity has none of the three, and a character that stands for itself is none of them
    rcases escapeHtmlChar_cases c with he | ⟨hself, hc, hq⟩
    · generalize escapeHtmlChar c = e at he
      cases he <;> decide
    · rw [hself]
      simp only [Reserved, not_or] at hc
      simp only [List.mem_singleton]
      exact ⟨Ne.symm hc.2.1, Ne.symm hc.2.2, Ne.symm hq⟩
  simp only [escapeHtml, List.mem_flatMap, not_exists, not_and]
  exact ⟨fun c _ => (hchar c).1, fun c _ => (hchar c).2.1, fun c _ => (hchar c).2.2⟩

namespace Token

/-- The token with text and values as they are written. -/
def escape : Token → Token
  | text cs => text (escapeHtml cs)
  | opening name attributes => opening name (attributes.map fun a => (a.1, escapeHtml a.2))
  | closing name => closing name

/-- The token with the text and the values that are meant. -/
def unescape : Token → Token
  | text cs => text (Html.unescape cs)
  | opening name attributes => opening name (attributes.map fun a => (a.1, Html.unescape a.2))
  | closing name => closing name

theorem unescape_escape (t : Token) : t.escape.unescape = t := by
  cases t <;> simp [escape, unescape, unescape_escapeHtml, Function.comp_def]

end Token

/-! ### Reading what was printed -/

/-- A piece of a rendering as a token. -/
def token : Markup → Token
  | .text cs => .text cs
  | .openBold => .opening ['b'] []
  | .closeBold => .closing ['b']
  | .openItalic => .opening ['i'] []
  | .closeItalic => .closing ['i']
  | .openLink target => .opening ['a'] [(['h', 'r', 'e', 'f'], target)]
  | .closeLink => .closing ['a']

/-- Tokens behind a run of text, with the runs of text that stand side by side made into one. -/
def joined (run : List Char) : List Token → List Token
  | [] => [.text run]
  | .text cs :: ts => joined (run ++ cs) ts
  | .opening name attributes :: ts => .text run :: .opening name attributes :: joined [] ts
  | .closing name :: ts => .text run :: .closing name :: joined [] ts

theorem foldlM_text {cs : List Char} (h : '<' ∉ cs) (run : List Char) (ts : List Token) :
    cs.foldlM Reader.step ⟨.text run, ts⟩ = some ⟨.text (run ++ cs), ts⟩ := by
  induction cs generalizing run with
  | nil => simp
  | cons c cs ih =>
    rw [List.mem_cons, not_or] at h
    have hstep : Reader.step ⟨.text run, ts⟩ c = some ⟨.text (run ++ [c]), ts⟩ :=
      if_neg (Ne.symm h.1)
    rw [List.foldlM_cons, hstep]
    show cs.foldlM Reader.step ⟨.text (run ++ [c]), ts⟩ = _
    rw [ih h.2]
    simp

theorem foldlM_value {cs : List Char} (h : '"' ∉ cs) (name key value : List Char)
    (attributes : List (List Char × List Char)) (ts : List Token) :
    cs.foldlM Reader.step ⟨.value name attributes key value, ts⟩ =
      some ⟨.value name attributes key (value ++ cs), ts⟩ := by
  induction cs generalizing value with
  | nil => simp
  | cons c cs ih =>
    rw [List.mem_cons, not_or] at h
    have hstep : Reader.step ⟨.value name attributes key value, ts⟩ c =
        some ⟨.value name attributes key (value ++ [c]), ts⟩ := if_neg (Ne.symm h.1)
    rw [List.foldlM_cons, hstep]
    show cs.foldlM Reader.step ⟨.value name attributes key (value ++ [c]), ts⟩ = _
    rw [ih h.2]
    simp

/-- The tag of a link is read whole, whatever its target. -/
theorem foldlM_openLink (target run : List Char) (ts : List Token) :
    (Markup.openLink target).printPiece.foldlM Reader.step ⟨.text run, ts⟩ =
      some ⟨.text [], ts ++ [.text run] ++ [(token (.openLink target)).escape]⟩ := by
  -- the value ends at the quotation mark behind the target, since an escaped target has none
  have hstart : ['<', 'a', ' ', 'h', 'r', 'e', 'f', '=', '"'].foldlM Reader.step ⟨.text run, ts⟩ =
      some ⟨.value ['a'] [] ['h', 'r', 'e', 'f'] [], ts ++ [.text run]⟩ := rfl
  have hend : ['"', '>'].foldlM Reader.step
        ⟨.value ['a'] [] ['h', 'r', 'e', 'f'] (escapeHtml target), ts ++ [.text run]⟩ =
      some ⟨.text [], ts ++ [.text run] ++ [(token (.openLink target)).escape]⟩ := rfl
  rw [Markup.printPiece, List.foldlM_append, List.foldlM_append, hstart]
  simp only [Option.bind_eq_bind, Option.bind_some, foldlM_value (not_mem_escapeHtml target).2.2,
    List.nil_append, hend]

/-- What is printed is read as the tokens that it stands for, behind any run of text. -/
theorem read_print (ms : List Markup) (run : List Char) (ts : List Token) :
    ((Markup.print ms).foldlM Reader.step ⟨.text (escapeHtml run), ts⟩).bind Reader.finish =
      some (ts ++ (joined run (ms.map token)).map Token.escape) := by
  -- `run` is the text since the last tag: pieces of text side by side are read as one run
  induction ms generalizing run ts with
  | nil => rfl
  | cons m ms ih =>
    -- a tag ends the run, and the next one begins with nothing
    have htag : ∀ t, m.printPiece.foldlM Reader.step ⟨.text (escapeHtml run), ts⟩ =
          some ⟨.text [], ts ++ [.text (escapeHtml run)] ++ [t]⟩ →
        ((Markup.print (m :: ms)).foldlM Reader.step ⟨.text (escapeHtml run), ts⟩).bind
            Reader.finish =
          some (ts ++ .text (escapeHtml run) :: t :: (joined [] (ms.map token)).map Token.escape) := by
      intro t ht
      rw [Markup.print_cons, List.foldlM_append, ht]
      refine (ih [] (ts ++ [.text (escapeHtml run)] ++ [t])).trans ?_
      simp
    cases m with
    | text cs =>
      -- no tag begins in escaped text, so the run grows by all of it
      rw [Markup.print_cons, List.foldlM_append, Markup.printPiece,
        foldlM_text (not_mem_escapeHtml cs).1, ← escapeHtml_append]
      exact ih _ _
    | openLink target => exact htag _ (foldlM_openLink target _ _)
    | openBold => exact htag _ rfl
    | closeBold => exact htag _ rfl
    | openItalic => exact htag _ rfl
    | closeItalic => exact htag _ rfl
    | closeLink => exact htag _ rfl

theorem tokens?_print (ms : List Markup) :
    tokens? (Markup.print ms) = some ((joined [] (ms.map token)).map Token.escape) :=
  read_print ms [] []

/-! ### Tags -/

/-- A tag with the names of its attributes, without their values. -/
inductive Tag
  | opening (name : List Char) (keys : List (List Char))
  | closing (name : List Char)
deriving DecidableEq

/-- The tag of a token. -/
def Token.tag? : Token → Option Tag
  | text _ => none
  | opening name attributes => some (.opening name (attributes.map Prod.fst))
  | closing name => some (.closing name)

/-- The tags among tokens, in order. -/
def tags (ts : List Token) : List Tag := ts.filterMap Token.tag?

/-- Tags that are balanced and nest. -/
inductive Nested : List Tag → Prop
  | nil : Nested []
  | element {name : List Char} {keys : List (List Char)} {inner rest : List Tag}
      (hinner : Nested inner) (h : Nested rest) :
      Nested (.opening name keys :: (inner ++ .closing name :: rest))

theorem Nested.append {xs ys : List Tag} (hx : Nested xs) (hy : Nested ys) : Nested (xs ++ ys) := by
  induction hx with
  | nil => exact hy
  | element hinner _ _ ih =>
    rw [List.cons_append, List.append_assoc]
    exact .element hinner ih

theorem tags_escape (ts : List Token) : tags (ts.map Token.escape) = tags ts := by
  have htag : ∀ t : Token, t.escape.tag? = t.tag? := by
    intro t
    cases t <;> simp [Token.escape, Token.tag?, Function.comp_def]
  simp [tags, List.filterMap_map, htag]

theorem tags_joined (run : List Char) (ts : List Token) : tags (joined run ts) = tags ts := by
  induction ts generalizing run with
  | nil => rfl
  | cons t ts ih =>
    cases t with
    | text cs => exact ih (run ++ cs)
    | opening name attributes => exact congrArg (Tag.opening name (attributes.map Prod.fst) :: ·) (ih [])
    | closing name => exact congrArg (Tag.closing name :: ·) (ih [])

end Courier.Html

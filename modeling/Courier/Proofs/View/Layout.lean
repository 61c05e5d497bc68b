import Courier.Proofs.View.Contents
import Courier.Proofs.View.Tokens

/-!
What a rendering shows.

The layout of a view is a list of fixed literals, strings of the data and tags (`View.layout`).  It
is made from the shape of the content, which says which articles, sections and optional parts are
there, in the same way whatever stands for the strings (`View.layout_map`).  So the literals and the
tags of a layout are those of the outline, the shape without its strings.  This is what it means
that no string of the data has a part in the markup: the function that lays out cannot look at one.

The layout is defined apart from the renderers, and that they follow it is `Content.tokens_markup`,
by the cases of the content.  What a rendering shows is then read off the layout: the strings that
stand in it, in order (`View.data_layout`), and its tags (`View.tags_layout`), which nest
(`Shape.nested_tags`).

Tokens are read from the text of a rendering by a reader that knows nothing of views
(`Html.tokens?_print`).

Main statement: read as tokens and unescaped, a rendering is the layout of its content; its tags are
those of the outline, and they nest (`render_shows`).
-/

namespace Courier

open Html

/-! ### Layouts -/

/-- A piece of a layout, with strings of the data in `α`.

* `literal`: a text that is fixed by the view. -/
inductive Piece (α : Type)
  | literal (s : String)
  | datum (x : α)
  | opening (name : List Char) (attributes : List (List Char × α))
  | closing (name : List Char)

namespace Piece

variable {α β : Type}

/-- The piece with other strings. -/
def map (f : α → β) : Piece α → Piece β
  | literal s => literal s
  | datum x => datum (f x)
  | opening name attributes => opening name (attributes.map fun a => (a.1, f a.2))
  | closing name => closing name

/-- The strings of the data in a piece. -/
def data : Piece α → List α
  | literal _ | closing _ => []
  | datum x => [x]
  | opening _ attributes => attributes.map Prod.snd

/-- The tag of a piece, if it is one. -/
def tags : Piece α → List Tag
  | literal _ | datum _ => []
  | opening name attributes => [.opening name (attributes.map Prod.fst)]
  | closing name => [.closing name]

/-- The piece as a token. -/
def token : Piece String → Token
  | literal s | datum s => .text s.toList
  | opening name attributes => .opening name (attributes.map fun a => (a.1, a.2.toList))
  | closing name => .closing name

/-- A title that links to a target. -/
def linked (link title : α) : List (Piece α) :=
  [opening ['a'] [(['h', 'r', 'e', 'f'], link)], datum title, closing ['a']]

/-- Bold pieces. -/
def strong (ps : List (Piece α)) : List (Piece α) := opening ['b'] [] :: (ps ++ [closing ['b']])

/-- The line of an article on its origin. -/
def origin : List α → List (Piece α)
  | [] => []
  | parts =>
    literal "\n" :: opening ['i'] [] ::
      ([literal " · "].intercalate (parts.map fun p => [datum p]) ++ [closing ['i']])

/-- A section of a digest. -/
def block (name : α) (articles : List (α × α)) : List (Piece α) :=
  strong [datum name] ++ articles.flatMap fun a => literal "\n• " :: linked a.1 a.2

end Piece

/-- What content shows, with its strings in `α`.

* `digest`: the sections with articles, each with its name and the links and titles of its
  articles. -/
inductive Shape (α : Type)
  | status (text : α)
  | list (items : List α)
  | article (link title : α) (source day description : Option α)
  | digest (sections : List (α × List (α × α)))

namespace Shape

variable {α β : Type}

/-- The shape with other strings. -/
def map (f : α → β) : Shape α → Shape β
  | status t => status (f t)
  | list items => list (items.map f)
  | article link title source day description =>
    article (f link) (f title) (source.map f) (day.map f) (description.map f)
  | digest sections =>
    digest (sections.map fun s => (f s.1, s.2.map fun a => (f a.1, f a.2)))

/-- The strings of a shape, in order. -/
def strings : Shape α → List α
  | status t => [t]
  | list items => items
  | article link title source day description =>
    [link, title] ++ source.toList ++ day.toList ++ description.toList
  | digest sections => sections.flatMap fun s => s.1 :: s.2.flatMap fun a => [a.1, a.2]

/-- The tags of a link. -/
def linkTags : List Tag := [.opening ['a'] [['h', 'r', 'e', 'f']], .closing ['a']]

/-- The tags of a shape: they depend on which articles and sections there are, and on whether there is
a source or a day. -/
def tags : Shape α → List Tag
  | status _ | list _ => []
  | article _ _ source day _ =>
    .opening ['b'] [] :: (linkTags ++ [.closing ['b']]) ++
      if source.isSome || day.isSome then [.opening ['i'] [], .closing ['i']] else []
  | digest sections =>
    sections.flatMap fun s => .opening ['b'] [] :: .closing ['b'] :: s.2.flatMap fun _ => linkTags

end Shape

/-- The sign that a view sets before a status text. -/
def View.sign : View → String
  | .success => "✅ "
  | .error => "❌ "
  | .info => "ℹ️ "
  | .list | .article | .digest => ""

open Piece in
/-- The layout of a view for a shape. -/
def View.layout {α : Type} (v : View) : Shape α → List (Piece α)
  | .status t => [literal v.sign, datum t]
  | .list items => [literal "\n"].intercalate (items.map fun i => [literal "• ", datum i])
  | .article link title source day description =>
    strong (linked link title) ++ origin (source.toList ++ day.toList) ++
      description.toList.flatMap fun d => [literal "\n\n", datum d]
  | .digest sections => [literal "\n\n"].intercalate (sections.map fun s => block s.1 s.2)

/-! ### Layouts and what stands for the strings -/

theorem map_intercalate {α β : Type} (f : α → β) (x : α) (xss : List (List α)) :
    ([x].intercalate xss).map f = [f x].intercalate (xss.map (List.map f)) := by
  induction xss with
  | nil => rfl
  | cons xs xss ih =>
    cases xss with
    | nil => simp
    | cons ys xss =>
      rw [List.intercalate_cons_cons, List.map_append, List.map_append, ih]
      simp [List.intercalate_cons_cons]

/-- What stands between does not count if nothing comes of it. -/
theorem flatMap_intercalate {α β : Type} {f : α → List β} {x : α} (hx : f x = [])
    (xss : List (List α)) : ([x].intercalate xss).flatMap f = xss.flatMap (List.flatMap f) := by
  induction xss with
  | nil => rfl
  | cons xs xss ih =>
    cases xss with
    | nil => simp
    | cons ys xss =>
      rw [List.intercalate_cons_cons, List.flatMap_append, List.flatMap_append, ih]
      simp [hx]

theorem Markup.separated_eq (s : String) (ms : List (List Markup)) :
    separated s ms = [run s].intercalate ms := by
  induction ms with
  | nil => rfl
  | cons m ms ih =>
    cases ms with
    | nil => simp [separated]
    | cons n ms =>
      rw [separated, ih, List.intercalate_cons_cons]
      · simp
      · simp

namespace Piece

variable {α β : Type}

theorem map_origin (f : α → β) (parts : List α) :
    (origin parts).map (map f) = origin (parts.map f) := by
  cases parts with
  | nil => rfl
  | cons p parts => simp [origin, map, map_intercalate, Function.comp_def]

theorem map_block (f : α → β) (name : α) (articles : List (α × α)) :
    (block name articles).map (map f) =
      block (f name) (articles.map fun a => (f a.1, f a.2)) := by
  simp [block, strong, linked, map, List.map_flatMap, List.flatMap_map]

theorem data_origin (parts : List α) : (origin parts).flatMap data = parts := by
  cases parts with
  | nil => rfl
  | cons p parts =>
    have hbetween : data (literal " · " : Piece α) = [] := rfl
    simp [origin, data, flatMap_intercalate hbetween, List.flatMap_map]

theorem tags_origin (parts : List α) :
    (origin parts).flatMap tags = if parts.isEmpty then [] else [.opening ['i'] [], .closing ['i']] := by
  cases parts with
  | nil => rfl
  | cons p parts =>
    have hbetween : tags (literal " · " : Piece α) = [] := rfl
    simp [origin, tags, flatMap_intercalate hbetween, List.flatMap_map]

/-- The tags of pieces are those of their tokens. -/
theorem tags_token (ps : List (Piece String)) : Html.tags (ps.map token) = ps.flatMap tags := by
  have htag : ∀ p : Piece String, p.token.tag?.toList = p.tags := by
    intro p
    cases p <;> simp [token, Token.tag?, tags, Function.comp_def]
  rw [Html.tags, List.filterMap_eq_flatMap_toList, List.flatMap_map]
  exact congrArg ps.flatMap (funext htag)

end Piece

/-- A layout is made in the same way whatever stands for the strings. -/
theorem View.layout_map {α β : Type} (v : View) (f : α → β) (s : Shape α) :
    (v.layout s).map (Piece.map f) = v.layout (s.map f) := by
  cases s with
  | status t => rfl
  | list items => simp [layout, Shape.map, map_intercalate, Piece.map, Function.comp_def]
  | article link title source day description =>
    -- the parts of the line below the title, as far as they are there
    have hparts : (source.toList ++ day.toList).map f = (source.map f).toList ++ (day.map f).toList := by
      cases source <;> cases day <;> rfl
    have hbody : (description.toList.flatMap fun d =>
          [Piece.literal "\n\n", .datum d]).map (Piece.map f) =
        (description.map f).toList.flatMap fun d => [Piece.literal "\n\n", .datum d] := by
      cases description <;> rfl
    simp only [layout, Shape.map, List.map_append, Piece.map_origin, hparts, hbody]
    rfl
  | digest sections =>
    simp [layout, Shape.map, map_intercalate, Piece.map, Piece.map_block, Function.comp_def]

/-- The strings of a layout are those of the shape, in order. -/
theorem View.data_layout {α : Type} (v : View) (s : Shape α) :
    (v.layout s).flatMap Piece.data = s.strings := by
  cases s with
  | status t => rfl
  | list items =>
    rw [layout, flatMap_intercalate rfl, List.flatMap_map]
    simp [Piece.data, Shape.strings]
  | article link title source day description =>
    rw [layout, List.flatMap_append, List.flatMap_append, Piece.data_origin]
    cases description <;> simp [Piece.data, Piece.strong, Piece.linked, Shape.strings]
  | digest sections =>
    rw [layout, flatMap_intercalate rfl, List.flatMap_map]
    simp [Piece.data, Piece.block, Piece.strong, Piece.linked, Shape.strings, List.flatMap_assoc]

/-- The tags of a layout depend on the shape only. -/
theorem View.tags_layout {α : Type} (v : View) (s : Shape α) :
    (v.layout s).flatMap Piece.tags = s.tags := by
  cases s with
  | status t => rfl
  | list items =>
    rw [layout, flatMap_intercalate rfl, List.flatMap_map]
    simp [Piece.tags, Shape.tags]
  | article link title source day description =>
    rw [layout, List.flatMap_append, List.flatMap_append, Piece.tags_origin]
    -- every optional part is there or is not
    cases source <;> cases day <;> cases description <;>
      simp [Piece.tags, Piece.strong, Piece.linked, Shape.tags, Shape.linkTags]
  | digest sections =>
    rw [layout, flatMap_intercalate rfl, List.flatMap_map]
    simp [Piece.tags, Piece.block, Piece.strong, Piece.linked, Shape.tags, Shape.linkTags,
      List.flatMap_assoc]

theorem Shape.tags_map {α β : Type} (f : α → β) (s : Shape α) : (s.map f).tags = s.tags := by
  cases s with
  | status t => rfl
  | list items => rfl
  | article link title source day description => simp [map, tags]
  | digest sections => simp [map, tags, List.flatMap_map]

theorem nested_flatMap {β : Type} {f : β → List Tag} (hf : ∀ b, Nested (f b)) (bs : List β) :
    Nested (bs.flatMap f) := by
  induction bs with
  | nil => exact .nil
  | cons b bs ih =>
    rw [List.flatMap_cons]
    exact (hf b).append ih

theorem Shape.nested_tags {α : Type} (s : Shape α) : Nested s.tags := by
  have hlink : Nested linkTags := .element .nil .nil
  cases s with
  | status t => exact .nil
  | list items => exact .nil
  | article link title source day description =>
    -- the title is a link in bold, and a line in italics may follow
    have hline : Nested (.opening ['b'] [] :: (linkTags ++ [.closing ['b']])) := .element hlink .nil
    refine hline.append ?_
    split_ifs
    · exact .element .nil .nil
    · exact .nil
  | digest sections =>
    apply nested_flatMap
    intro s
    exact .element .nil (nested_flatMap (fun _ => hlink) s.2)

/-! ### Content -/

namespace Content

/-- The description of an article as it is shown: trimmed, unless it is blank. -/
def described (a : Article) : Option String :=
  (a.description.filter fun d => !Text.blank d).map Text.trim

/-- What content shows. -/
def shape : Content → Shape String
  | status _ t => .status t
  | list items => .list items
  | article a => .article a.link a.title a.source (a.publishedAt.map fun t => t.dateText) (described a)
  | digest sections =>
    .digest ((shown sections).map fun s => (s.1, s.2.map fun a => (a.link, a.title)))

/-- What is left of what content shows without its strings. -/
def outline (c : Content) : Shape Unit := c.shape.map fun _ => ()

/-- The sign that was read with a status text is that of the view. -/
theorem Of.sign_eq {v : View} {data : Json.Value} {sign t : String}
    (h : Of v data (status sign t)) : sign = v.sign := by
  cases h <;> rfl

theorem token_run (s : String) : token (Markup.run s) = .text s.toList := rfl

theorem tokens_link (target title : String) :
    (Markup.link target title).map Html.token = (Piece.linked target title).map Piece.token := rfl

theorem tokens_originLine (a : Article) :
    (originLine a).map Html.token = (Piece.origin (origin a)).map Piece.token := by
  unfold originLine
  rcases origin a with - | ⟨p, parts⟩
  · rfl
  · simp [Piece.origin, Markup.italic, Markup.separated_eq, map_intercalate, Function.comp_def,
      Piece.token, Markup.run, token]

theorem tokens_body (a : Article) :
    (body a).map Html.token =
      ((described a).toList.flatMap fun d => [Piece.literal "\n\n", .datum d]).map Piece.token := by
  unfold body described
  cases a.description with
  | none => rfl
  | some d =>
    -- a blank description is neither described nor shown
    cases hblank : Text.blank d <;> simp [Option.filter, hblank, token_run, Piece.token]

theorem tokens_sectionBlock (name : String) (articles : List Article) :
    (sectionBlock name articles).map Html.token =
      (Piece.block name (articles.map fun a => (a.link, a.title))).map Piece.token := by
  simp [sectionBlock, Markup.bold, Piece.block, Piece.strong, Piece.token, List.map_flatMap,
    List.flatMap_map, tokens_link, Markup.run, token]

/-- The pieces of a rendering are those of the layout of its content. -/
theorem tokens_markup {v : View} {data : Json.Value} {c : Content} (h : c.Of v data) :
    c.markup.map Html.token = (v.layout c.shape).map Piece.token := by
  -- each kind of content is rendered in the way that its layout says
  cases c with
  | status sign t =>
    rw [h.sign_eq]
    rfl
  | list items =>
    simp [markup, shape, View.layout, Markup.separated_eq, map_intercalate, Function.comp_def, token_run,
      Piece.token]
  | article a =>
    simp only [markup, shape, View.layout, List.map_append, tokens_originLine, tokens_body]
    rfl
  | digest sections =>
    simp [markup, shape, View.layout, Markup.separated_eq, map_intercalate, Function.comp_def, token_run,
      Piece.token, tokens_sectionBlock, shown]

end Content

/-- How the tokens of a rendering show content: the tags do not depend on its strings, and the text and
the values of attributes are the strings between the literals of the view. -/
structure Shows (v : View) (c : Content) (ts : List Token) : Prop where
  tags : Html.tags ts = c.outline.tags
  nested : Nested (Html.tags ts)
  unescaped : ts.map Token.unescape = joined [] ((v.layout c.shape).map Piece.token)
  strings : (v.layout c.shape).flatMap Piece.data = c.shape.strings
  literals : (v.layout c.shape).map (Piece.map fun _ => ()) = v.layout c.outline

theorem Content.Of.shows_print {v : View} {data : Json.Value} {c : Content} (h : c.Of v data) :
    Shows v c ((joined [] (c.markup.map token)).map Token.escape) := by
  have htags : Html.tags ((joined [] (c.markup.map token)).map Token.escape) = c.outline.tags := by
    -- neither escaping nor joining runs of text changes the tags
    rw [tags_escape, tags_joined, c.tokens_markup h, Piece.tags_token, v.tags_layout]
    exact (c.shape.tags_map _).symm
  refine ⟨htags, ?_, ?_, v.data_layout c.shape, v.layout_map _ c.shape⟩
  · rw [htags]
    exact c.outline.nested_tags
  · rw [List.map_map, ← c.tokens_markup h]
    simp [Function.comp_def, Token.unescape_escape]

/-- Data that a view accepts is shown as data, and never as markup. -/
theorem render_shows {v : View} {data : Json.Value} {c : Content} (h : v.read data = .ok c) :
    c.Of v data ∧
    (∃ html ts, render v.name data = .ok html ∧ tokens? html = some ts ∧ Shows v c ts) ∧
    ∀ cs, Html.unescape (escapeHtml cs) = cs ∧
      '<' ∉ escapeHtml cs ∧ '>' ∉ escapeHtml cs ∧ '"' ∉ escapeHtml cs := by
  have hof : c.Of v data := Content.of_read h
  have hrender : render v.name data = .ok c.html := by
    simp [render, h]
  exact ⟨hof, ⟨c.html, _, hrender, tokens?_print c.markup, hof.shows_print⟩,
    fun cs => ⟨unescape_escapeHtml cs, not_mem_escapeHtml cs⟩⟩

/-- A title that looks like tags, and a target that looks like the end of its attribute. -/
def hostile : Article where
  title := "</a></b>"
  link := "\"><b>"
  description := none
  source := some "&lt;"
  publishedAt := none

/-- The article as data. -/
def hostileData : Json.Value :=
  .object [("link", .string hostile.link), ("source", .string "&lt;"), ("title", .string hostile.title)]

/-- The rendering as an article. -/
def hostileHtml : String :=
  "<b><a href=\"&quot;&gt;&lt;b&gt;\">&lt;/a&gt;&lt;/b&gt;</a></b>\n<i>&amp;lt;</i>"

/-- Strings that look like markup are shown as they are. -/
theorem render_shows_hostile :
    View.article.read hostileData = .ok (.article hostile) ∧
    render "article.html" hostileData = .ok hostileHtml.toList ∧
    ∃ ts, tokens? hostileHtml.toList = some ts ∧ Shows .article (.article hostile) ts := by
  have hread : View.article.read hostileData = .ok (.article hostile) := by decide
  have hhtml : render "article.html" hostileData = .ok hostileHtml.toList := by decide
  obtain ⟨-, ⟨html, ts, hrender, htokens, hshows⟩, -⟩ := render_shows hread
  obtain rfl : html = hostileHtml.toList := Except.ok.inj (hrender.symm.trans hhtml)
  exact ⟨hread, hhtml, ts, htokens, hshows⟩

end Courier

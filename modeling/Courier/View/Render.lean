import Courier.Markup
import Courier.Text.Blank
import Courier.View.Article

/-!
Views: how the data of a message is shown.

A view reads the data as a `Content` and shows it as `Markup`.  Every string of the content stands
in a run of text or a link target of its own, so the tags of a rendering depend only on the view and
on which parts of the content are there.
-/

namespace Courier

open Json

/-- The ways to show the data of a message. -/
inductive View
  | success
  | error
  | info
  | list
  | article
  | digest
deriving DecidableEq

namespace View

/-- The name of a view in messages. -/
def name : View → String
  | success => "success.html"
  | error => "error.html"
  | info => "info.html"
  | list => "list.html"
  | article => "article.html"
  | digest => "digest.html"

/-- All views. -/
def all : List View := [success, error, info, list, article, digest]

/-- The view of a name. -/
def ofName? (n : String) : Option View := all.find? fun v => v.name == n

@[simp] theorem ofName?_name (v : View) : ofName? v.name = some v := by
  cases v <;> decide

end View

/-- Why a message cannot be rendered. -/
inductive RenderError
  | unknownView (name : String)
  | invalidData (view : View) (reason : DecodeError)
deriving DecidableEq

/-- The wording of an error. -/
def RenderError.message : RenderError → String
  | .unknownView name => "Unknown view: " ++ name
  | .invalidData view reason => "Invalid data for view " ++ view.name ++ ": " ++ reason.message

/-- The data of a message as a view reads it. -/
inductive Content
  | status (sign : String) (text : String)
  | list (items : List String)
  | article (a : Article)
  /-- Articles by section, in ascending order of the sections' names. -/
  | digest (sections : List (String × List Article))
deriving DecidableEq

/-- Reads the data for a view. -/
def View.read (v : View) (data : Value) : Except DecodeError Content :=
  match v with
  | .success => (Read.string data).map (.status "✅ ")
  | .error => (Read.string data).map (.status "❌ ")
  | .info => (Read.string data).map (.status "ℹ️ ")
  | .list => (Read.list Read.string data).map .list
  | .article => (Article.read data).map .article
  | .digest => (Read.map (Read.list Article.read) data).map .digest

/-! ### Showing -/

namespace Content

open Markup

/-- The first line of an article: its title, bold, as a link. -/
def headline (a : Article) : List Markup := bold (link a.link a.title)

/-- Where an article comes from and the day it was published. -/
def origin (a : Article) : List String :=
  a.source.toList ++ (a.publishedAt.map fun t => t.dateText).toList

/-- The line on an article's origin, if anything is known of it. -/
def originLine (a : Article) : List Markup :=
  match origin a with
  | [] => []
  | parts => run "\n" :: italic (separated " · " (parts.map fun p => [run p]))

/-- The description of an article after an empty line, unless it is blank. -/
def body (a : Article) : List Markup :=
  match a.description with
  | none => []
  | some d => if Text.blank d then [] else [run "\n\n", run (Text.trim d)]

/-- A section of a digest: its name, bold, and a line for each article. -/
def sectionBlock (name : String) (articles : List Article) : List Markup :=
  bold [run name] ++ articles.flatMap fun a => run "\n• " :: link a.link a.title

/-- The content as markup. -/
def markup : Content → List Markup
  | status sign t => [run sign, run t]
  | list items => separated "\n" (items.map fun i => [run "• ", run i])
  | article a => headline a ++ originLine a ++ body a
  | digest sections =>
    separated "\n\n" ((sections.filter fun s => !s.2.isEmpty).map fun s => sectionBlock s.1 s.2)

/-- The content as HTML. -/
def html (c : Content) : List Char := Markup.print c.markup

end Content

/-- The HTML of data under the view of this name. -/
def render (view : String) (data : Value) : Except RenderError (List Char) :=
  match View.ofName? view with
  | none => .error (.unknownView view)
  | some v =>
    match v.read data with
    | .ok content => .ok content.html
    | .error reason => .error (.invalidData v reason)

end Courier

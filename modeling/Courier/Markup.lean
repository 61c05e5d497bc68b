/-!
The HTML subset of the notification service.

A rendering is a list of `Markup` pieces: runs of text and tags.  `Markup.print` writes them out;
text and link targets are escaped, so that no string can be taken for markup.
-/

namespace Courier

/-- A character as it is written in HTML text and in attribute values. -/
def escapeHtmlChar (c : Char) : List Char :=
  if c = '&' then ['&', 'a', 'm', 'p', ';']
  else if c = '<' then ['&', 'l', 't', ';']
  else if c = '>' then ['&', 'g', 't', ';']
  else if c = '"' then ['&', 'q', 'u', 'o', 't', ';']
  else [c]

/-- A text as it is written in HTML. -/
def escapeHtml (cs : List Char) : List Char := cs.flatMap escapeHtmlChar

/-- A piece of a rendering. -/
inductive Markup
  | text (cs : List Char)
  | openBold
  | closeBold
  | openItalic
  | closeItalic
  | openLink (target : List Char)
  | closeLink
deriving DecidableEq

namespace Markup

/-- A piece of a rendering as HTML. -/
def printPiece : Markup → List Char
  | text cs => escapeHtml cs
  | openBold => ['<', 'b', '>']
  | closeBold => ['<', '/', 'b', '>']
  | openItalic => ['<', 'i', '>']
  | closeItalic => ['<', '/', 'i', '>']
  | openLink target =>
    ['<', 'a', ' ', 'h', 'r', 'e', 'f', '=', '"'] ++ escapeHtml target ++ ['"', '>']
  | closeLink => ['<', '/', 'a', '>']

/-- A rendering as HTML. -/
def print (ms : List Markup) : List Char := ms.flatMap printPiece

@[simp] theorem print_nil : print [] = [] := rfl

@[simp] theorem print_cons (m : Markup) (ms : List Markup) :
    print (m :: ms) = m.printPiece ++ print ms := rfl

@[simp] theorem print_append (ms ns : List Markup) : print (ms ++ ns) = print ms ++ print ns := by
  simp [print]

/-- A run of text. -/
def run (s : String) : Markup := text s.toList

/-- Text that links to a target. -/
def link (target title : String) : List Markup :=
  [openLink target.toList, run title, closeLink]

/-- Bold pieces. -/
def bold (ms : List Markup) : List Markup := openBold :: (ms ++ [closeBold])

/-- Italic pieces. -/
def italic (ms : List Markup) : List Markup := openItalic :: (ms ++ [closeItalic])

/-- Renderings with a run of text between them. -/
def separated (between : String) : List (List Markup) → List Markup
  | [] => []
  | [m] => m
  | m :: ms => m ++ run between :: separated between ms

end Markup

end Courier

import Courier.Json.Token

/-!
A JSON text read as a tree, as far as it is JSON.

A `Document` is what a text says, members in the order of the text and repeated ones included.
Where the text stops being JSON, the innermost value is `broken` or a container ends with a break,
so a reader that walks the document meets the fault exactly where the text has it, after everything
that stands before it.  `Document.read` builds it with a stack of the containers that are open, one
token at a time.
-/

namespace Courier.Json

/-- A JSON text as a tree.  A container carries the break that it ends with, if it is not closed. -/
inductive Document
  | null
  | bool (b : Bool)
  | numeral (n : Numeral)
  | text (pieces : List Piece)
  | array (items : List Document) (stop : Option Break)
  | object (members : List (List Piece × Document)) (stop : Option Break)
  | broken (b : Break)

/-- A container that is open, its content in reverse. -/
inductive Frame
  | array (done : List Document)
  /-- An object, with the key of the member that is being read. -/
  | object (done : List (List Piece × Document)) (key : List Piece)

/-- What may come next. -/
inductive Expected
  /-- A value. -/
  | value
  /-- A value, or the end of the array just opened. -/
  | firstItem
  /-- A key, or the end of the object just opened. -/
  | firstKey
  /-- A key of the object with these members. -/
  | nextKey (done : List (List Piece × Document))
  /-- The colon after the key of the innermost object. -/
  | colon
  /-- A comma or the end of the innermost container, after a value. -/
  | comma (last : Document)

/-- Puts a document into its containers, which end with it. -/
def Frame.enclose : List Frame → Document → Document
  | [], d => d
  | .array done :: rest, d => enclose rest (.array (d :: done).reverse none)
  | .object done key :: rest, d => enclose rest (.object ((key, d) :: done).reverse none)

/-- The document of a text that breaks off here. -/
def Expected.halt (e : Expected) (stack : List Frame) (b : Break) : Document :=
  match e with
  | .value | .colon => Frame.enclose stack (.broken b)
  | .firstItem => Frame.enclose stack (.array [] (some b))
  | .firstKey => Frame.enclose stack (.object [] (some b))
  | .nextKey done => Frame.enclose stack (.object done.reverse (some b))
  | .comma d =>
    match stack with
    | [] => d
    | .array done :: rest => Frame.enclose rest (.array (d :: done).reverse (some b))
    | .object done key :: rest => Frame.enclose rest (.object ((key, d) :: done).reverse (some b))

/-- The break at a token that cannot stand where it does. -/
def Break.misplaced : Break := ⟨[], .malformed⟩

/-- The break at the end of a text that lacks something. -/
def Break.atEnd : Break := ⟨[], .ended⟩

/-- A token where a value must stand: what comes after it, or the break. -/
def Token.begin (t : Token) : Except Break Expected :=
  match t with
  | .null => .ok (.comma .null)
  | .bool b => .ok (.comma (.bool b))
  | .numeral n => .ok (.comma (.numeral n))
  | .text ps => .ok (.comma (.text ps))
  | .openArray => .ok .firstItem
  | .openObject => .ok .firstKey
  | .brokenText b | .broken b => .error b
  | .closeArray | .closeObject | .comma | .colon => .error .misplaced

/-- A token where a key must stand: the key, or the break. -/
def Token.key (t : Token) : Except Break (List Piece) :=
  match t with
  | .text ps => .ok ps
  | .brokenText b => .error b
  | _ => .error .misplaced

/-- Reads one token: what comes next and the containers then open, or the break. -/
def Expected.step (e : Expected) (stack : List Frame) (t : Token) :
    Except Break (Expected × List Frame) :=
  match e, t with
  | .value, t => t.begin.map (·, stack)
  | .firstItem, .closeArray => .ok (.comma (.array [] none), stack)
  | .firstItem, t => t.begin.map (·, .array [] :: stack)
  | .firstKey, .closeObject => .ok (.comma (.object [] none), stack)
  | .firstKey, t => t.key.map fun key => (.colon, .object [] key :: stack)
  | .nextKey done, t => t.key.map fun key => (.colon, .object done key :: stack)
  | .colon, .colon => .ok (.value, stack)
  | .colon, _ => .error .misplaced
  | .comma d, t =>
    match stack, t with
    | .array done :: rest, .comma => .ok (.value, .array (d :: done) :: rest)
    | .array done :: rest, .closeArray => .ok (.comma (.array (d :: done).reverse none), rest)
    | .object done key :: rest, .comma => .ok (.nextKey ((key, d) :: done), rest)
    | .object done key :: rest, .closeObject =>
      .ok (.comma (.object ((key, d) :: done).reverse none), rest)
    | _, _ => .error .misplaced

/-- Reads tokens to the end of the value or of the text; the second part tells whether anything
follows the value. -/
def Document.read (e : Expected) (stack : List Frame) : List Token → Document × Bool
  | [] => (e.halt stack .atEnd, false)
  | t :: ts =>
    match e, stack with
    | .comma d, [] => (d, true)
    | e, stack =>
      match e.step stack t with
      | .error b => (e.halt stack b, false)
      | .ok (e, stack) => Document.read e stack ts

/-- The document of a text, and whether the text goes on after its value. -/
def Document.ofText (text : String) : Document × Bool :=
  Document.read .value [] (tokens text.toList)

/-- The first break inside a value that is only passed over: surrogates, the size of numbers and the
depth of nesting do not matter there, and an end inside a number is malformed. -/
def Document.skip : Document → Option Stop
  | .null | .bool _ | .numeral _ | .text _ => none
  | .broken b => some (skipped b)
  | .array items stop => (skipItems items).or (stop.map skipped)
  | .object members stop => (skipMembers members).or (stop.map skipped)
where
  skipped (b : Break) : Stop := if b.why = .endedInNumber then .malformed else b.why
  skipItems : List Document → Option Stop
    | [] => none
    | d :: ds => (skip d).or (skipItems ds)
  skipMembers : List (List Piece × Document) → Option Stop
    | [] => none
    | (_, d) :: ms => (skip d).or (skipMembers ms)

end Courier.Json

import Courier.Config.Setting
import Courier.Json.Token
import Courier.Text.Blank

/-!
Settings from the environment.

A variable whose name begins with the program's prefix, in any case of letters, is a setting.  The
rest of its name, in lower case, is a path of keys: two underscores, like a point, go one table
down.  Its value is read by a small grammar of tables, lists, quoted texts, numbers and truth
values; a value that does not follow the grammar is a text.
-/

namespace Courier.Config.Environment

/-! ### Values -/

/-- What a reader of a part gives: the part and the rest of the text. -/
abbrev Reader (α : Type) := List Char → Option (α × List Char)

/-- The blanks of the grammar. -/
def isBlank (c : Char) : Bool := c = ' ' || c = '\t' || c = '\n' || c = '\r' || c = '\x0c'

/-- Removes blanks. -/
def skipBlanks (cs : List Char) : List Char := cs.dropWhile isBlank

/-- Whether a character may stand in a value without quotes. -/
def isOpen (c : Char) : Bool := !(c = ',' || c = '{' || c = '}' || c = '[' || c = ']')

/-- Whether a character may stand in a key without quotes. -/
def isKeyChar (c : Char) : Bool := c.isAlphanum || c = '_' || c = '-'

/-- The number that hexadecimal digits spell, if it is a character's. -/
def hexChar? (digits : List Char) : Option Char := do
  let n ← Json.hexValue? digits
  if n < 0xD800 ∨ (0xE000 ≤ n ∧ n < 0x110000) then some (Char.ofNat n) else none

/-- The text that a quoted text spells. -/
def unescape : Nat → List Char → Option (List Char)
  | _, [] => some []
  | 0, _ => none
  | n + 1, '\\' :: c :: cs =>
    if c = 'u' ∨ c = 'U' then do
      let size := if c = 'u' then 4 else 8
      if cs.length < size then none
      else
        let h ← hexChar? (cs.take size)
        return h :: (← unescape n (cs.drop size))
    else do
      let e ← [('"', '"'), ('\\', '\\'), ('b', '\x08'), ('f', '\x0c'), ('n', '\n'), ('r', '\r'),
        ('t', '\t')].lookup c
      return e :: (← unescape n cs)
  | n + 1, c :: cs =>
    if c = '\\' ∨ c = '\x7f' ∨ (c.toNat < 0x20 ∧ c ≠ '\t') then none
    else do return c :: (← unescape n cs)

/-- The characters up to the closing quote, as written, and the rest after it. -/
def quotedBody : List Char → Option (List Char × List Char)
  | [] => none
  | '"' :: cs => some ([], cs)
  | '\\' :: c :: cs => (quotedBody cs).map fun (b, r) => ('\\' :: c :: b, r)
  | c :: cs => (quotedBody cs).map fun (b, r) => (c :: b, r)

/-- A quoted text. -/
def quoted : Reader String
  | '"' :: cs => do
    let (body, rest) ← quotedBody cs
    let text ← unescape body.length body
    return (String.ofList text, rest)
  | _ => none

/-- A key of a table. -/
def key : Reader String := fun cs =>
  match cs with
  | '"' :: _ => quoted cs
  | _ =>
    let k := cs.takeWhile isKeyChar
    if k.isEmpty then none else some (String.ofList k, cs.dropWhile isKeyChar)

/-- The value of decimal digits, of which there must be one. -/
def digits? (cs : List Char) : Option Nat :=
  if cs.isEmpty ∨ !cs.all Char.isDigit then none else some (Real.value cs)

/-- A value without quotes: a number with a point, a whole number of 64 bits, or a text. -/
def bare (cs : List Char) : Atom :=
  let real := if cs.contains '.' then Real.ofDecimal? cs else none
  match real with
  | some x => .real x
  | none =>
    let (negative, ds) := Real.sign cs
    match digits? ds with
    | some n =>
      if !negative ∧ n < bound64 then .unsigned n
      else if negative ∧ n ≤ bound63 then .signed (-(n : Int))
      else .text (String.ofList cs)
    | none => .text (String.ofList cs)

/-- Removes a given word from the front. -/
def word (w : List Char) (cs : List Char) : Option (List Char) :=
  if w.isPrefixOf cs then some (cs.drop w.length) else none

mutual

/-- A value with blanks around it; containers are nested at most `fuel` deep. -/
def value (fuel : Nat) (cs : List Char) : Option (Setting × List Char) :=
  match fuel with
  | 0 => none
  | fuel + 1 => do
    let cs := skipBlanks cs
    let atom (a : Atom) : Setting := .atom .environment a
    let (s, rest) ←
      match word ['t', 'r', 'u', 'e'] cs, word ['f', 'a', 'l', 's', 'e'] cs, cs with
      | some rest, _, _ => some (atom (.flag true), rest)
      | none, some rest, _ => some (atom (.flag false), rest)
      | none, none, '{' :: rest =>
        (entries fuel rest).map fun (es, r) => (.table .environment (Json.Members.ofList es), r)
      | none, none, '[' :: rest => (items fuel rest).map fun (vs, r) => (.list .environment vs, r)
      | none, none, '"' :: rest => (quoted ('"' :: rest)).map fun (t, r) => (atom (.text t), r)
      | none, none, '\'' :: rest =>
        match rest with
        | c :: '\'' :: rest => some (atom (.letter c), rest)
        | _ => none
      | none, none, cs =>
        some (atom (bare (Text.trimChars (cs.takeWhile isOpen))), cs.dropWhile isOpen)
    return (s, skipBlanks rest)

/-- The items of a list up to its closing bracket; the last one may be followed by a comma. -/
def items (fuel : Nat) (cs : List Char) : Option (List Setting × List Char) :=
  match fuel, cs with
  | 0, _ => none
  | _, ']' :: rest => some ([], rest)
  | fuel + 1, cs => do
    let (v, rest) ← value fuel cs
    match rest with
    | ',' :: rest =>
      let (vs, rest) ← items fuel rest
      return (v :: vs, rest)
    | ']' :: rest => return ([v], rest)
    | _ => none

/-- The entries of a table up to its closing brace; the last one may be followed by a comma. -/
def entries (fuel : Nat) (cs : List Char) : Option (List (String × Setting) × List Char) :=
  match fuel, cs with
  | 0, _ => none
  | _, '}' :: rest => some ([], rest)
  | fuel + 1, cs => do
    let (k, rest) ← key (skipBlanks cs)
    match skipBlanks rest with
    | '=' :: rest =>
      let (v, rest) ← value fuel rest
      match rest with
      | ',' :: rest =>
        let (es, rest) ← entries fuel rest
        return ((k, v) :: es, rest)
      | '}' :: rest => return ([(k, v)], rest)
      | _ => none
    | _ => none

end

/-- The setting that the value of a variable denotes. -/
def read (text : String) : Setting :=
  match value (2 * text.length + 2) text.toList with
  | some (s, []) => s
  | _ => .atom .environment (.text text)

/-! ### Names -/

/-- The prefix of the variables that are settings, in lower case. -/
def namePrefix : List Char := "herald_".toList

/-- Two underscores become a point. -/
def splitUnderscores : List Char → List Char
  | '_' :: '_' :: cs => '.' :: splitUnderscores cs
  | c :: cs => c :: splitUnderscores cs
  | [] => []

/-- The parts of a text between points. -/
def parts (cs : List Char) : List (List Char) :=
  cs.foldr (fun c ps => match ps with
    | [] => [[c]]
    | p :: ps => if c = '.' then [] :: p :: ps else (c :: p) :: ps) [[]]

/-- The path of keys that the name of a variable denotes, if it is a setting. -/
def path? (name : String) : Option (List String) :=
  let lower := (Text.trimChars name.toList).map Char.toLower
  match word namePrefix lower with
  | none => none
  | some rest =>
    let ps := parts (splitUnderscores rest)
    if ps.any List.isEmpty then none else some (ps.map String.ofList)

/-- The settings of an environment; of two variables for one key the later one counts. -/
def settings (given : List (String × String)) : Setting :=
  given.foldl (fun s (name, text) =>
    match path? name with
    | some path => s.merge (Setting.nest .environment path (read text))
    | none => s) (.table .environment [])

end Courier.Config.Environment

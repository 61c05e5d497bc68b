import Courier.Config.Setting
import Courier.Json.Token
import Courier.Time.Date

/-!
TOML files.

A file is read in two steps.  `statements?` reads its lines: pairs of a dotted key and a value, and
headers of tables and of arrays of tables.  `Table.ofStatements?` builds the tables and refuses a
key that is defined twice.  `Toml.parse?` gives the file as a `Setting`.
-/

namespace Courier.Config.Toml

/-! ### Characters -/

/-- What a reader of a part gives: the part and the rest of the text. -/
abbrev Reader (α : Type) := List Char → Option (α × List Char)

/-- The blanks within a line. -/
def isBlank (c : Char) : Bool := c = ' ' || c = '\t'

/-- Removes blanks within the line. -/
def skipBlanks (cs : List Char) : List Char := cs.dropWhile isBlank

/-- Whether a character may stand in comments and texts: no control but the tab. -/
def isPrintable (c : Char) : Bool := c = '\t' || (0x20 ≤ c.toNat && c.toNat ≠ 0x7F)

/-- Whether a character may stand in a key without quotes. -/
def isKeyChar (c : Char) : Bool := c.isAlphanum || c = '_' || c = '-'

/-- A line end. -/
def newline : Reader PUnit
  | '\n' :: cs => some ((), cs)
  | '\r' :: '\n' :: cs => some ((), cs)
  | _ => none

/-- Removes a comment. -/
def skipComment : List Char → List Char
  | '#' :: cs => cs.dropWhile isPrintable
  | cs => cs

/-- The end of a line or of the file, after blanks and a comment. -/
def lineEnd : Reader PUnit := fun cs =>
  match skipComment (skipBlanks cs) with
  | [] => some ((), [])
  | cs => newline cs

/-- Removes blanks, comments and line ends. -/
def skipLines : Nat → List Char → List Char
  | 0, cs => cs
  | n + 1, cs =>
    let cs := skipComment (skipBlanks cs)
    match newline cs with
    | some (_, rest) => skipLines n rest
    | none => cs

/-- Removes blanks, comments and line ends. -/
def skipSpace (cs : List Char) : List Char := skipLines cs.length cs

/-! ### Texts -/

/-- The character that an escape of a given number of hexadecimal digits spells. -/
def hexEscape (size : Nat) : Reader Char := fun cs => do
  let n ← Json.hexValue? (cs.take size)
  if cs.length < size then none
  else if n < 0xD800 ∨ (0xE000 ≤ n ∧ n < 0x110000) then some (Char.ofNat n, cs.drop size)
  else none

/-- The character that an escape spells, after the backslash. -/
def escape : Reader Char
  | 'u' :: cs => hexEscape 4 cs
  | 'U' :: cs => hexEscape 8 cs
  | c :: cs =>
    ([('"', '"'), ('\\', '\\'), ('b', '\x08'), ('f', '\x0c'), ('n', '\n'), ('r', '\r'),
      ('t', '\t')].lookup c).map fun e => (e, cs)
  | [] => none

/-- A text of one line with escapes, after its opening quote. -/
def basicBody : Nat → Reader (List Char)
  | 0, _ => none
  | _, [] => none
  | _, '"' :: cs => some ([], cs)
  | n + 1, '\\' :: cs => do
    let (c, cs) ← escape cs
    let (b, cs) ← basicBody n cs
    return (c :: b, cs)
  | n + 1, c :: cs =>
    if isPrintable c then (basicBody n cs).map fun (b, r) => (c :: b, r) else none

/-- A text of one line without escapes, after its opening quote. -/
def literalBody : Reader (List Char)
  | [] => none
  | '\'' :: cs => some ([], cs)
  | c :: cs => if isPrintable c then (literalBody cs).map fun (b, r) => (c :: b, r) else none

/-- How many of a character stand at the front. -/
def runLength (q : Char) (cs : List Char) : Nat := (cs.takeWhile (· = q)).length

/-- The end of a text of several lines: three quotes close it, one or two more belong to it. -/
def closing (q : Char) (cs : List Char) : Option (List Char × List Char) :=
  let n := runLength q cs
  if 3 ≤ n ∧ n ≤ 5 then some (List.replicate (n - 3) q, cs.drop n)
  else if 5 < n then some (List.replicate 2 q, cs.drop 5)
  else none

/-- Removes blanks and line ends. -/
def skipWhite : List Char → List Char
  | '\r' :: '\n' :: cs => skipWhite cs
  | c :: cs => if isBlank c || c = '\n' then skipWhite cs else c :: cs
  | [] => []

/-- A text of several lines, after its opening quotes; `escapes` tells whether it has escapes. -/
def multilineBody (q : Char) (escapes : Bool) : Nat → Reader (List Char)
  | 0, _ => none
  | _, [] => none
  | n + 1, c :: cs =>
    let goOn (c : Char) (cs : List Char) :=
      (multilineBody q escapes n cs).map fun (b, r) => (c :: b, r)
    if c = q then
      match closing q (c :: cs) with
      | some (b, r) => some (b, r)
      | none => goOn c cs
    else if c = '\\' ∧ escapes then
      match newline (skipBlanks cs) with
      | some (_, rest) => multilineBody q escapes n (skipWhite rest)
      | none => (escape cs).bind fun (e, r) => goOn e r
    else
      match newline (c :: cs) with
      | some (_, rest) => goOn '\n' rest
      | none => if isPrintable c then goOn c cs else none

/-- Drops the line end right after the opening quotes. -/
def dropFirstLineEnd (cs : List Char) : List Char :=
  match newline cs with
  | some (_, rest) => rest
  | none => cs

/-- A text in any of its four forms. -/
def text : Reader String := fun cs =>
  let read := match cs with
    | '"' :: '"' :: '"' :: cs => multilineBody '"' true (cs.length + 1) (dropFirstLineEnd cs)
    | '\'' :: '\'' :: '\'' :: cs => multilineBody '\'' false (cs.length + 1) (dropFirstLineEnd cs)
    | '"' :: cs => basicBody (cs.length + 1) cs
    | '\'' :: cs => literalBody cs
    | _ => none
  read.map fun (b, r) => (String.ofList b, r)

/-! ### Keys -/

/-- One part of a dotted key. -/
def simpleKey : Reader String
  | '"' :: cs => (basicBody (cs.length + 1) cs).map fun (b, r) => (String.ofList b, r)
  | '\'' :: cs => (literalBody cs).map fun (b, r) => (String.ofList b, r)
  | cs =>
    let k := cs.takeWhile isKeyChar
    if k.isEmpty then none else some (String.ofList k, cs.dropWhile isKeyChar)

/-- A dotted key with blanks around its parts. -/
def dottedKey : Nat → Reader (List String)
  | 0, _ => none
  | n + 1, cs => do
    let (k, cs) ← simpleKey (skipBlanks cs)
    match skipBlanks cs with
    | '.' :: cs => do
      let (ks, cs) ← dottedKey n cs
      return (k :: ks, cs)
    | cs => return ([k], cs)

/-- How many parts a key has at most, and how deep containers are nested at most. -/
def deepest : Nat := 79

/-- A dotted key. -/
def path : Reader (List String) := fun cs => do
  let (ks, cs) ← dottedKey (cs.length + 1) cs
  if ks.length ≤ deepest then some (ks, cs) else none

/-! ### Numbers and dates -/

/-- Removes underscores, which must stand between digits. -/
def plainDigits? (isDigit : Char → Bool) (cs : List Char) : Option (List Char) :=
  let rec go (before : Bool) : List Char → Option (List Char)
    | [] => if before then some [] else none
    | c :: cs =>
      if isDigit c then (go true cs).map (c :: ·)
      else if c = '_' ∧ before then
        match cs with
        | d :: _ => if isDigit d then go false cs else none
        | [] => none
      else none
  go false cs

/-- A whole number of 64 bits in decimal, without zeros in front. -/
def decimal? (cs : List Char) : Option Int := do
  let (negative, cs) := Real.sign cs
  let ds ← plainDigits? Char.isDigit cs
  if ds.length > 1 ∧ ds.head? = some '0' then none
  else
    let n := Real.value ds
    if negative then (if n ≤ bound63 then some (-(n : Int)) else none)
    else if n < bound63 then some n else none

/-- A whole number of 63 bits in another base. -/
def based? (base : Nat) (cs : List Char) : Option Int := do
  let isDigit (c : Char) : Bool := match Json.hexDigit? c with
    | some d => d < base
    | none => false
  let ds ← plainDigits? isDigit cs
  let n := ds.foldl (fun n c => base * n + (Json.hexDigit? c).getD 0) 0
  if n < bound63 then some (n : Int) else none

/-- A number with a point or an exponent; positive numbers may not be too large. -/
def float? (cs : List Char) : Option Real := do
  let (negative, body) := Real.sign cs
  match body with
  | ['i', 'n', 'f'] => return .infinite negative
  | ['n', 'a', 'n'] => return .notANumber
  | _ =>
    let whole := body.takeWhile fun c => c.isDigit || c = '_'
    let rest := body.dropWhile fun c => c.isDigit || c = '_'
    let ws ← plainDigits? Char.isDigit whole
    if ws.length > 1 ∧ ws.head? = some '0' then none
    let (fraction, rest) ← match rest with
      | '.' :: rest => do
        let fs ← plainDigits? Char.isDigit (rest.takeWhile fun c => c.isDigit || c = '_')
        some (fs, rest.dropWhile fun c => c.isDigit || c = '_')
      | rest => if rest.isEmpty then none else some ([], rest)
    let exponent ← match rest with
      | [] => some 0
      | e :: rest =>
        if e = 'e' ∨ e = 'E' then do
          let (down, ds) := Real.sign rest
          let ds ← plainDigits? Char.isDigit ds
          some (if down then -(Real.value ds : Int) else Real.value ds)
        else none
    let x := Real.ofDigits negative (Real.value (ws ++ fraction)) (exponent - fraction.length)
    if x = .infinite false then none else some x

/-- A number of exactly so many digits between two bounds, and the rest. -/
def fixed (size least most : Nat) : Reader Nat := fun cs =>
  let ds := cs.take size
  let n := Real.value ds
  if ds.length = size ∧ ds.all Char.isDigit ∧ least ≤ n ∧ n ≤ most then
    some (n, cs.drop size)
  else none

/-- One given character. -/
def char (c : Char) : Reader PUnit
  | d :: cs => if c = d then some ((), cs) else none
  | [] => none

/-- A date that exists. -/
def date : Reader PUnit := fun cs => do
  let (year, cs) ← fixed 4 0 9999 cs
  let (_, cs) ← char '-' cs
  let (month, cs) ← fixed 2 1 12 cs
  let (_, cs) ← char '-' cs
  let (day, cs) ← fixed 2 1 31 cs
  if (Time.Date.mk year month day).Valid then some ((), cs) else none

/-- A time of day. -/
def clock : Reader PUnit := fun cs => do
  let (_, cs) ← fixed 2 0 23 cs
  let (_, cs) ← char ':' cs
  let (_, cs) ← fixed 2 0 59 cs
  let (_, cs) ← char ':' cs
  let (_, cs) ← fixed 2 0 60 cs
  match cs with
  | '.' :: cs =>
    if (cs.takeWhile Char.isDigit).isEmpty then none else some ((), cs.dropWhile Char.isDigit)
  | cs => some ((), cs)

/-- An offset from UTC, or nothing. -/
def offset (cs : List Char) : List Char :=
  match cs with
  | 'Z' :: cs | 'z' :: cs => cs
  | c :: rest =>
    if c = '+' ∨ c = '-' then
      let read : Option (List Char) := do
        let (_, rest) ← fixed 2 0 23 rest
        let (_, rest) ← char ':' rest
        let (_, rest) ← fixed 2 0 59 rest
        return rest
      read.getD cs
    else cs
  | [] => []

/-- A date, a time of day, or both with or without an offset. -/
def timestamp : Reader PUnit := fun cs =>
  match date cs with
  | some (_, rest) =>
    match rest with
    | c :: after =>
      if c = 'T' ∨ c = 't' ∨ c = ' ' then
        match clock after with
        | some (_, after) => some ((), offset after)
        | none => some ((), rest)
      else some ((), rest)
    | [] => some ((), [])
  | none => clock cs

/-- Whether a character may stand in a number. -/
def isNumberChar (c : Char) : Bool := c.isAlphanum || c = '_' || c = '.' || c = '+' || c = '-'

/-- A number or a truth value from the characters that it consists of. -/
def scalar? (cs : List Char) : Option Atom :=
  match cs with
  | ['t', 'r', 'u', 'e'] => some (.flag true)
  | ['f', 'a', 'l', 's', 'e'] => some (.flag false)
  | '0' :: 'x' :: ds => (based? 16 ds).map .signed
  | '0' :: 'o' :: ds => (based? 8 ds).map .signed
  | '0' :: 'b' :: ds => (based? 2 ds).map .signed
  | cs => ((float? cs).map .real) <|> ((decimal? cs).map .signed)

/-! ### Tables -/

/-- A value or a table under construction. -/
inductive Node
  | value (s : Setting)
  /-- A table; an implied one was named only on the way to another, a dotted one by a dotted key. -/
  | table (implied dotted : Bool) (entries : List (String × Node))
  /-- An array of tables, the last one first. -/
  | tables (items : List (List (String × Node)))

instance : Inhabited Node := ⟨.table false false []⟩

/-- The entries of a table under construction. -/
abbrev Entries := List (String × Node)

/-- Replaces the node under a key, or adds it. -/
def put (k : String) (n : Node) (es : Entries) : Entries := Json.Members.insert k n es

/-- Changes the table at the end of a path.  `dotted` tells a dotted key from a header. -/
def descend (dotted : Bool) (change : Bool → Entries → Option Entries) :
    List String → Bool → Entries → Option Entries
  | [], isDotted, es => change isDotted es
  | k :: ks, _, es => do
    match Json.Members.get? k es with
    | none =>
      let inner ← descend dotted change ks dotted []
      return put k (.table true dotted inner) es
    | some (.table implied isDotted inner) =>
      if dotted ∧ !implied then none
      else
        let inner ← descend dotted change ks isDotted inner
        return put k (.table implied isDotted inner) es
    | some (.tables (last :: rest)) =>
      let inner ← descend dotted change ks false last
      return put k (.tables (inner :: rest)) es
    | some _ => none

/-- Adds a value under a dotted key; the key must be new. -/
def addPair (keys : List String) (n : Node) (es : Entries) : Option Entries :=
  match keys.reverse with
  | [] => none
  | last :: front =>
    descend true (fun isDotted inner =>
      -- a table is filled by dotted keys or by plain ones, never by both
      if isDotted = front.isEmpty then none
      else if (Json.Members.get? last inner).isSome then none
      else some (put last n inner)) front.reverse false es

mutual

/-- The setting that a node denotes. -/
def Node.setting : Node → Setting
  | .value s => s
  | .table _ _ es => .table .file (settings es)
  | .tables items => .list .file (itemSettings items).reverse

/-- The settings of entries. -/
def Node.settings : List (String × Node) → List (String × Setting)
  | [] => []
  | (k, n) :: es => (k, n.setting) :: settings es

/-- The settings of the tables of an array. -/
def Node.itemSettings : List (List (String × Node)) → List Setting
  | [] => []
  | es :: rest => .table .file (settings es) :: itemSettings rest

end

/-! ### Values -/

mutual

/-- A value with containers in it nested at most `depth` deep. -/
def value (fuel depth : Nat) (cs : List Char) : Option (Setting × List Char) :=
  match fuel, depth, cs with
  | 0, _, _ => none
  | _, 0, '[' :: _ | _, 0, '{' :: _ => none
  | fuel + 1, depth + 1, '[' :: cs =>
    (items fuel depth (skipSpace cs)).map fun (vs, r) => (.list .file vs, r)
  | fuel + 1, depth + 1, '{' :: cs =>
    match skipBlanks cs with
    | '}' :: cs => some (.table .file [], cs)
    | cs => (pairs fuel depth cs []).map fun (es, r) => ((Node.table false false es).setting, r)
  | _, _, '"' :: cs => (text ('"' :: cs)).map fun (t, r) => (.atom .file (.text t), r)
  | _, _, '\'' :: cs => (text ('\'' :: cs)).map fun (t, r) => (.atom .file (.text t), r)
  | _, _, cs =>
    match timestamp cs with
    | some (_, rest) =>
      let written := cs.take (cs.length - rest.length)
      -- a timestamp is a table with one entry that no section knows
      some (.table .file [("$__toml_private_datetime",
        .atom .file (.text (String.ofList written)))], rest)
    | none =>
      (scalar? (cs.takeWhile isNumberChar)).map fun a => (.atom .file a, cs.dropWhile isNumberChar)

/-- The items of an array up to its closing bracket. -/
def items (fuel depth : Nat) (cs : List Char) : Option (List Setting × List Char) :=
  match fuel, cs with
  | 0, _ => none
  | _, ']' :: cs => some ([], cs)
  | fuel + 1, cs => do
    let (v, cs) ← value fuel depth cs
    match skipSpace cs with
    | ',' :: cs =>
      let (vs, cs) ← items fuel depth (skipSpace cs)
      return (v :: vs, cs)
    | ']' :: cs => return ([v], cs)
    | _ => none

/-- The pairs of an inline table up to its closing brace. -/
def pairs (fuel depth : Nat) (cs : List Char) (es : Entries) : Option (Entries × List Char) :=
  match fuel with
  | 0 => none
  | fuel + 1 => do
    let (keys, cs) ← path cs
    match cs with
    | '=' :: cs => do
      let (v, cs) ← value fuel depth (skipBlanks cs)
      let es ← addPair keys (.value v) es
      match skipBlanks cs with
      | ',' :: cs => pairs fuel depth cs es
      | '}' :: cs => return (es, cs)
      | _ => none
    | _ => none

end

/-! ### Statements -/

/-- A statement of a file. -/
inductive Statement
  | pair (keys : List String) (v : Setting)
  | header (keys : List String)
  | arrayHeader (keys : List String)

/-- One statement, without the end of its line. -/
def statement : Reader Statement
  | '[' :: '[' :: cs => do
    let (keys, cs) ← path cs
    match cs with
    | ']' :: ']' :: cs => return (.arrayHeader keys, cs)
    | _ => none
  | '[' :: cs => do
    let (keys, cs) ← path cs
    match cs with
    | ']' :: cs => return (.header keys, cs)
    | _ => none
  | cs => do
    let (keys, cs) ← path cs
    match cs with
    | '=' :: cs => do
      let (v, cs) ← value (2 * cs.length + 2) deepest (skipBlanks cs)
      return (.pair keys v, cs)
    | _ => none

/-- The statements of a file, each on a line of its own. -/
def statements? : Nat → List Char → Option (List Statement)
  | 0, _ => none
  | n + 1, cs =>
    match skipSpace cs with
    | [] => some []
    | cs => do
      let (s, cs) ← statement cs
      let (_, cs) ← lineEnd cs
      let ss ← statements? n cs
      return s :: ss

/-- Opens the table of a header: it must be new, or only implied so far. -/
def openTable (last : String) (_ : Bool) (es : Entries) : Option Entries :=
  match Json.Members.get? last es with
  | none => some (put last (.table false false []) es)
  | some (.table true false inner) => some (put last (.table false false inner) es)
  | some _ => none

/-- Opens a further table of an array. -/
def openArrayTable (last : String) (_ : Bool) (es : Entries) : Option Entries :=
  match Json.Members.get? last es with
  | none => some (put last (.tables [[]]) es)
  | some (.tables items) => some (put last (.tables ([] :: items)) es)
  | some _ => none

/-- Changes the table at the end of a path of headers. -/
def atHeader (change : Bool → Entries → Option Entries) (path : List String) (es : Entries) :
    Option Entries := descend false change path false es

/-- Builds the tables of a file; `current` is the path of the header that is in force. -/
def build (current : List String) : List Statement → Entries → Option Entries
  | [], es => some es
  | .pair keys v :: ss, es => do
    let es ← atHeader (fun _ inner => addPair keys (.value v) inner) current es
    build current ss es
  | .header keys :: ss, es =>
    match keys.reverse with
    | [] => none
    | last :: front => do
      let es ← atHeader (openTable last) front.reverse es
      build keys ss es
  | .arrayHeader keys :: ss, es =>
    match keys.reverse with
    | [] => none
    | last :: front => do
      let es ← atHeader (openArrayTable last) front.reverse es
      build keys ss es

/-- The setting that a file spells, or `none` if it is not TOML. -/
def parse? (file : String) : Option Setting := do
  let cs := match file.toList with
    | '\ufeff' :: cs => cs
    | cs => cs
  let ss ← statements? (cs.length + 1) cs
  let es ← build [] ss []
  return (Node.table false false es).setting

end Courier.Config.Toml

import Courier.Text.Percent
import Courier.Text.Punycode

/-!
Absolute URLs in normal form.

`Url.normalize?` reads a URL the way browsers do and writes it again: scheme and host in lower case,
the default port left out, dot segments resolved, and characters that may not stand in their part
percent-encoded.  Texts without a scheme, and hosts that are no hosts, are refused.
-/

namespace Courier.Text.Url

/-! ### Parts -/

/-- The port that a scheme has unless another is written; only these schemes have a host always. -/
def defaultPort? (scheme : String) : Option Nat :=
  [("http", 80), ("https", 443), ("ws", 80), ("wss", 443), ("ftp", 21)].lookup scheme

/-- The text without blanks and controls at the ends and without tabs and line ends. -/
def clean (cs : List Char) : List Char :=
  let isEdge (c : Char) : Bool := c.toNat ≤ 0x20
  let cs := ((cs.dropWhile isEdge).reverse.dropWhile isEdge).reverse
  cs.filter fun c => !(c = '\t' || c = '\n' || c = '\r')

/-- The scheme, in lower case, and what follows its colon. -/
def scheme? (cs : List Char) : Option (String × List Char) :=
  let isPart (c : Char) : Bool := c.isAlphanum || c = '+' || c = '-' || c = '.'
  match cs with
  | c :: _ =>
    if c.isAlpha then
      match cs.dropWhile isPart with
      | ':' :: rest => some (String.ofList ((cs.takeWhile isPart).map Char.toLower), rest)
      | _ => none
    else none
  | [] => none

/-- Characters that are encoded in fragments. -/
def inFragment (c : Char) : Bool := c = ' ' || c = '"' || c = '<' || c = '>' || c = '`'

/-- Characters that are encoded in queries. -/
def inQuery (special : Bool) (c : Char) : Bool :=
  c = ' ' || c = '"' || c = '<' || c = '>' || c = '#' || (special && c = '\'')

/-- Characters that are encoded in paths. -/
def inPath (c : Char) : Bool := inFragment c || c = '#' || c = '?' || c = '{' || c = '}'

/-- Characters that are encoded in names and passwords. -/
def inUser (c : Char) : Bool :=
  inPath c || c = '/' || c = ':' || c = ';' || c = '=' || c = '@' || c = '[' || c = '\\' ||
    c = ']' || c = '^' || c = '|'

/-- Splits a text at every character of a kind. -/
def splitOn (boundary : Char → Bool) (cs : List Char) : List (List Char) :=
  cs.foldr (fun c ps => match ps with
    | [] => [[c]]
    | p :: ps => if boundary c then [] :: p :: ps else (c :: p) :: ps) [[]]

/-! ### Hosts -/

/-- A number as a part of an address: decimal, octal after a zero, hexadecimal after `0x`. -/
def addressPart? (cs : List Char) : Option Nat :=
  let read (base : Nat) (ds : List Char) : Option Nat :=
    ds.foldl (fun v c => match v, hexValue? c with
      | some v, some d => if d < base then some (base * v + d) else none
      | _, _ => none) (some 0)
  match cs with
  | [] => none
  | '0' :: 'x' :: ds | '0' :: 'X' :: ds => read 16 ds
  | '0' :: d :: ds => read 8 (d :: ds)
  | ds => read 10 ds

/-- Whether the last part of a host is a number. -/
def endsInNumber (cs : List Char) : Bool :=
  let parts := (splitOn (· = '.') cs).reverse
  let parts := match parts with
    | [] :: p :: ps => p :: ps
    | ps => ps
  match parts with
  | p :: _ =>
    (!p.isEmpty && p.all Char.isDigit) || (p.take 2 == ['0', 'x'] && (addressPart? p).isSome)
  | [] => false

/-- An address of four bytes, whose last part fills what is left. -/
def address4? (cs : List Char) : Option (List Char) := do
  let parts := splitOn (· = '.') cs
  let parts := if parts.getLast? = some [] ∧ 1 < parts.length then parts.dropLast else parts
  if 4 < parts.length then none
  else
    let ns ← parts.mapM addressPart?
    let last := ns.getLastD 0
    let front := ns.dropLast
    if front.any (255 < ·) ∨ Nat.pow 256 (5 - ns.length) ≤ last then none
    else
      let n := front.foldl (fun (n, i) b => (n + b * Nat.pow 256 (3 - i), i + 1)) (last, 0) |>.1
      let byte (i : Nat) : List Char := (toString (n / Nat.pow 256 i % 256)).toList
      some (byte 3 ++ '.' :: byte 2 ++ '.' :: byte 1 ++ '.' :: byte 0)

/-- One group of an address of eight groups. -/
def group? (cs : List Char) : Option Nat :=
  if cs.isEmpty ∨ 4 < cs.length then none
  else cs.foldl (fun v c => match v, hexValue? c with
    | some v, some d => some (16 * v + d)
    | _, _ => none) (some 0)

/-- The groups of a part of an address, an address of four bytes at its end being two groups. -/
def groups? (cs : List Char) : Option (List Nat) :=
  if cs.isEmpty then some []
  else
    let parts := splitOn (· = ':') cs
    match parts.reverse with
    | last :: front =>
      if last.contains '.' then do
        let four ← (splitOn (· = '.') last).mapM fun p =>
          if p.isEmpty ∨ 3 < p.length ∨ !p.all Char.isDigit ∨
              (p.length > 1 ∧ p.head? = some '0') then
            none
          else addressPart? p
        match four with
        | [a, b, c, d] =>
          if four.any (255 < ·) then none
          else return (← front.reverse.mapM group?) ++ [256 * a + b, 256 * c + d]
        | _ => none
      else parts.mapM group?
    | [] => some []

/-- The parts of a text before and after its first double colon. -/
def splitDouble : List Char → Option (List Char × List Char)
  | ':' :: ':' :: cs => some ([], cs)
  | c :: cs => (splitDouble cs).map fun (a, b) => (c :: a, b)
  | [] => none

/-- The eight groups of an address between brackets. -/
def address6? (cs : List Char) : Option (List Nat) := do
  match splitDouble cs with
  | none =>
    let gs ← groups? cs
    if gs.length = 8 then some gs else none
  | some (a, b) =>
    let ga ← groups? a
    let gb ← groups? b
    if ga.length + gb.length ≤ 7 then
      some (ga ++ List.replicate (8 - ga.length - gb.length) 0 ++ gb)
    else none

/-- The longest run of at least two zeros, the first of equal ones: its place and length. -/
def longestZeros (gs : List Nat) : Option (Nat × Nat) :=
  let runs := (List.range gs.length).map fun i => (i, ((gs.drop i).takeWhile (· = 0)).length)
  runs.foldl (fun best r => match best with
    | none => if 2 ≤ r.2 then some r else none
    | some b => if b.2 < r.2 then some r else some b) none

/-- Groups in hexadecimal with colons. -/
def groupsText (gs : List Nat) : List Char :=
  (String.intercalate ":" (gs.map fun g => String.ofList (Nat.toDigits 16 g))).toList

/-- An address of eight groups, the longest run of zeros left out. -/
def address6Text (gs : List Nat) : List Char :=
  match longestZeros gs with
  | none => groupsText gs
  | some (i, n) => groupsText (gs.take i) ++ ':' :: ':' :: groupsText (gs.drop (i + n))

/-- Whether a character may not stand in a host. -/
def forbidden (c : Char) : Bool :=
  c.toNat ≤ 0x20 || c.toNat = 0x7F || "#%/:<>?@[\\]^|".toList.contains c

/-- A label of a domain in ASCII. -/
def label (cs : List Char) : List Char :=
  let lower := cs.map Char.toLower
  if lower.all fun c => c.toNat < 128 then lower else "xn--".toList ++ Punycode.encode lower

/-- The host of a URL whose scheme always has one. -/
def host? (cs : List Char) : Option (List Char) := do
  match cs with
  | '[' :: rest =>
    if rest.getLast? = some ']' then
      let gs ← address6? rest.dropLast
      some ('[' :: address6Text gs ++ [']'])
    else none
  | _ =>
    let decoded ← percentDecode? cs
    let labels := (splitOn (fun c => c = '.' || c = '。' || c = '．' || c = '｡') decoded).map label
    let domain := (String.intercalate "." (labels.map String.ofList)).toList
    if domain.isEmpty ∨ domain.any forbidden then none
    else if endsInNumber domain then address4? domain
    else some domain

/-- The host of any other URL, which is not interpreted. -/
def opaqueHost? (cs : List Char) : Option (List Char) :=
  match cs with
  | '[' :: _ => host? cs
  | _ =>
    if cs.any fun c => forbidden c && c ≠ '%' then none
    else some (percentEncode (fun _ => false) cs)

/-! ### Authority and path -/

/-- A port, or nothing if it is the scheme's own. -/
def port? (scheme : String) (cs : List Char) : Option (List Char) :=
  if cs.isEmpty then some []
  else if cs.all Char.isDigit then
    let n := cs.foldl (fun n c => 10 * n + (c.toNat - 48)) 0
    if 65535 < n then none
    else if defaultPort? scheme = some n then some []
    else some (':' :: (toString n).toList)
  else none

/-- The parts of a text before and after its last at sign. -/
def splitUser (cs : List Char) : Option (List Char) × List Char :=
  match (cs.reverse.dropWhile (· ≠ '@')) with
  | [] => (none, cs)
  | _ :: before => (some before.reverse, (cs.reverse.takeWhile (· ≠ '@')).reverse)

/-- Name and password in front of a host. -/
def userText (cs : List Char) : List Char :=
  let name := percentEncode inUser (cs.takeWhile (· ≠ ':'))
  let password := percentEncode inUser ((cs.dropWhile (· ≠ ':')).drop 1)
  if name.isEmpty ∧ password.isEmpty then []
  else name ++ (if password.isEmpty then [] else ':' :: password) ++ ['@']

/-- Splits a host from its port. -/
def splitPort (cs : List Char) : List Char × List Char :=
  match cs with
  | '[' :: _ =>
    let inner := cs.takeWhile (· ≠ ']')
    match cs.dropWhile (· ≠ ']') with
    | ']' :: ':' :: port => (inner ++ [']'], port)
    | rest => (inner ++ rest, [])
  | _ => (cs.takeWhile (· ≠ ':'), (cs.dropWhile (· ≠ ':')).drop 1)

/-- The authority of a URL. -/
def authority? (scheme : String) (cs : List Char) : Option (List Char) := do
  let special := (defaultPort? scheme).isSome
  let (user, rest) := splitUser cs
  let (host, port) := splitPort rest
  let h ← if special then host? host else opaqueHost? host
  let p ← port? scheme port
  some ((user.map userText).getD [] ++ h ++ p)

/-- Whether a segment means this directory. -/
def isDot (s : List Char) : Bool :=
  let l := s.map Char.toLower
  l == ['.'] || l == ['%', '2', 'e']

/-- Whether a segment means the directory above. -/
def isDotDot (s : List Char) : Bool :=
  let l := String.ofList (s.map Char.toLower)
  l == ".." || l == ".%2e" || l == "%2e." || l == "%2e%2e"

/-- Resolves dot segments; `done` holds the segments so far in reverse. -/
def resolve (done : List (List Char)) : List (List Char) → List (List Char)
  | [] => done.reverse
  | [s] =>
    if isDotDot s then ([] :: done.tail).reverse
    else if isDot s then ([] :: done).reverse
    else (s :: done).reverse
  | s :: rest =>
    if isDotDot s then resolve done.tail rest
    else if isDot s then resolve done rest
    else resolve (s :: done) rest

/-- The path of a URL. -/
def pathText (special : Bool) (cs : List Char) : List Char :=
  let isSlash (c : Char) : Bool := c = '/' || (special && c = '\\')
  match cs with
  | [] => if special then ['/'] else []
  | c :: rest =>
    let rest := if isSlash c then rest else c :: rest
    (resolve [] (splitOn isSlash rest)).flatMap fun s => '/' :: percentEncode inPath s

/-! ### Whole URLs -/

/-- Query and fragment, with their marks. -/
def tailText (special : Bool) (cs : List Char) : List Char :=
  let query := cs.takeWhile (· ≠ '#')
  let fragment := cs.dropWhile (· ≠ '#')
  (match query with
    | '?' :: q => '?' :: percentEncode (inQuery special) q
    | _ => []) ++
  (match fragment with
    | _ :: f => '#' :: percentEncode inFragment f
    | [] => [])

/-- The normal form of a URL. -/
def normalizeChars? (cs : List Char) : Option (List Char) := do
  let (scheme, rest) ← scheme? (clean cs)
  let special := (defaultPort? scheme).isSome
  let isEnd (c : Char) : Bool := c = '/' || c = '?' || c = '#' || (special && c = '\\')
  let isTail (c : Char) : Bool := c = '?' || c = '#'
  let front := scheme.toList ++ [':']
  let hasAuthority := special || rest.take 2 == ['/', '/']
  if hasAuthority then
    let rest := if special then rest.dropWhile fun c => c = '/' || c = '\\' else rest.drop 2
    let authority ← authority? scheme (rest.takeWhile fun c => !isEnd c)
    let rest := rest.dropWhile fun c => !isEnd c
    some (front ++ ['/', '/'] ++ authority ++
      pathText special (rest.takeWhile fun c => !isTail c) ++
      tailText special (rest.dropWhile fun c => !isTail c))
  else
    let path := rest.takeWhile fun c => !isTail c
    let path := match path with
      | '/' :: _ => pathText false path
      | _ => percentEncode (fun _ => false) path
    some (front ++ path ++ tailText false (rest.dropWhile fun c => !isTail c))

/-- The normal form of a URL, if the text is one. -/
def normalize? (s : String) : Option String := (normalizeChars? s.toList).map String.ofList

end Courier.Text.Url

import Courier.Json.Value
import Courier.Number.Width

/-!
The tokens of a JSON text.

`tokens` reads a text character by character in one pass and never fails: where the text stops being
JSON the list of tokens ends with a `Break` that says how.  Strings keep their escaped surrogates
and numbers their digits, since whether those denote anything is decided only where the value is
used.
-/

namespace Courier.Json

/-- Why a text stops being readable as JSON. -/
inductive Stop
  /-- The text ends too early. -/
  | ended
  /-- The text ends inside a number. -/
  | endedInNumber
  /-- The text goes on with something that cannot stand there. -/
  | malformed
deriving DecidableEq

/-- A piece of a string as written: a character or an escaped surrogate. -/
inductive Piece
  | char (c : Char)
  | surrogate (unit : Nat)
deriving DecidableEq

/-- The place where a text breaks off: the pieces of the string that it is in, if any, and the
reason. -/
structure Break where
  pieces : List Piece
  why : Stop
deriving DecidableEq

/-- A number as written: sign, digits, digits after the point, and sign and digits of the
exponent. -/
structure Numeral where
  negative : Bool
  whole : List Nat
  fraction : List Nat
  exponent : Option (Bool × List Nat)
  /-- Whether the numeral has a point or an exponent. -/
  pointed : Bool
deriving DecidableEq

/-- A token.  A broken one stands only at the end: a string that breaks off, or anything else. -/
inductive Token
  | null
  | bool (b : Bool)
  | numeral (n : Numeral)
  | text (pieces : List Piece)
  | openArray
  | closeArray
  | openObject
  | closeObject
  | comma
  | colon
  | brokenText (b : Break)
  | broken (b : Break)
deriving DecidableEq

/-! ### Character classes -/

/-- The blanks of JSON: space, tab, line feed and carriage return. -/
def isBlank (c : Char) : Bool := c = ' ' || c = '\t' || c = '\n' || c = '\r'

/-- The value of a decimal digit. -/
def digit? (c : Char) : Option Nat :=
  if '0' ≤ c ∧ c ≤ '9' then some (c.toNat - '0'.toNat) else none

/-- The value of a hexadecimal digit. -/
def hexDigit? (c : Char) : Option Nat :=
  if '0' ≤ c ∧ c ≤ '9' then some (c.toNat - '0'.toNat)
  else if 'a' ≤ c ∧ c ≤ 'f' then some (c.toNat - 'a'.toNat + 10)
  else if 'A' ≤ c ∧ c ≤ 'F' then some (c.toNat - 'A'.toNat + 10)
  else none

/-- The value of a list of hexadecimal digits. -/
def hexValue? (cs : List Char) : Option Nat :=
  cs.foldl (fun v c => match v, hexDigit? c with
    | some v, some d => some (16 * v + d)
    | _, _ => none) (some 0)

/-- The character that a backslash and one letter stand for. -/
def shortEscape? : Char → Option Char
  | '"' => some '"'
  | '\\' => some '\\'
  | '/' => some '/'
  | 'b' => some '\x08'
  | 'f' => some '\x0c'
  | 'n' => some '\n'
  | 'r' => some '\r'
  | 't' => some '\t'
  | _ => none

/-- The piece that four hexadecimal digits stand for. -/
def Piece.ofUnit (unit : Nat) : Piece :=
  if 0xD800 ≤ unit ∧ unit < 0xE000 then .surrogate unit else .char (Char.ofNat unit)

/-! ### Reading -/

/-- The part of a numeral that was read last. -/
inductive Numeral.Part
  | sign
  /-- A first zero, which no digit may follow. -/
  | zero
  | whole
  | point
  | fraction
  | mark
  | markSign
  | exponent
deriving DecidableEq

/-- Where the reading of a text stands.  Pieces, digits and letters read are in reverse. -/
inductive Scan
  | between
  /-- Inside a word that denotes `token`, before the letters `left`. -/
  | word (token : Token) (left : List Char)
  | text (done : List Piece)
  | escape (done : List Piece)
  /-- After a backslash and `u`. -/
  | hex (done : List Piece) (digits : List Char)
  | numeral (part : Numeral.Part) (done : Numeral)

/-- The numeral with its digit lists put in reading order. -/
def Numeral.finish (n : Numeral) : Numeral :=
  { n with
    whole := n.whole.reverse
    fraction := n.fraction.reverse
    exponent := n.exponent.map fun (negative, ds) => (negative, ds.reverse) }

/-- What a character does to a numeral: it extends it, or the numeral is over, or the text is
malformed. -/
inductive Numeral.Step
  | extended (part : Numeral.Part) (n : Numeral)
  | over
  | bad

/-- Reads one character of a numeral. -/
def Numeral.step (part : Numeral.Part) (n : Numeral) (c : Char) : Numeral.Step :=
  let addExponent (d : Nat) : Numeral.Step :=
    .extended .exponent { n with exponent := n.exponent.map fun (s, ds) => (s, d :: ds) }
  let mark : Numeral.Step :=
    .extended .mark { n with exponent := some (false, []), pointed := true }
  match part, digit? c with
  | .sign, some 0 => .extended .zero { n with whole := [0] }
  | .sign, some d => .extended .whole { n with whole := [d] }
  | .sign, none => .bad
  | .zero, some _ => .bad
  | .whole, some d => .extended .whole { n with whole := d :: n.whole }
  | .zero, none | .whole, none =>
    if c = '.' then .extended .point { n with pointed := true }
    else if c = 'e' ∨ c = 'E' then mark
    else .over
  | .point, some d => .extended .fraction { n with fraction := [d] }
  | .point, none => .bad
  | .fraction, some d => .extended .fraction { n with fraction := d :: n.fraction }
  | .fraction, none => if c = 'e' ∨ c = 'E' then mark else .over
  | .mark, some d => addExponent d
  | .mark, none =>
    if c = '+' then .extended .markSign n
    else if c = '-' then .extended .markSign { n with exponent := some (true, []) }
    else .bad
  | .markSign, some d => addExponent d
  | .markSign, none => .bad
  | .exponent, some d => addExponent d
  | .exponent, none => .over

/-- Whether a numeral may end after this part. -/
def Numeral.Part.complete : Numeral.Part → Bool
  | .zero | .whole | .fraction | .exponent => true
  | .sign | .point | .mark | .markSign => false

/-- A character between tokens: the tokens that it completes, and how reading goes on, or `none` if
it cannot stand there. -/
def Scan.start (c : Char) : Option (List Token × Scan) :=
  match c with
  | '[' => some ([.openArray], .between)
  | ']' => some ([.closeArray], .between)
  | '{' => some ([.openObject], .between)
  | '}' => some ([.closeObject], .between)
  | ',' => some ([.comma], .between)
  | ':' => some ([.colon], .between)
  | '"' => some ([], .text [])
  | '-' => some ([], .numeral .sign ⟨true, [], [], none, false⟩)
  | 'n' => some ([], .word .null ['u', 'l', 'l'])
  | 't' => some ([], .word (.bool true) ['r', 'u', 'e'])
  | 'f' => some ([], .word (.bool false) ['a', 'l', 's', 'e'])
  | c =>
    if isBlank c then some ([], .between)
    else
      match digit? c with
      | some 0 => some ([], .numeral .zero ⟨false, [0], [], none, false⟩)
      | some d => some ([], .numeral .whole ⟨false, [d], [], none, false⟩)
      | none => none

/-- The last token of a text that ends here. -/
def Scan.finish : Scan → List Token
  | .between => []
  | .word _ _ => [.broken ⟨[], .ended⟩]
  | .text done => [.brokenText ⟨done.reverse, .ended⟩]
  | .escape done => [.brokenText ⟨done.reverse, .ended⟩]
  | .hex done _ => [.brokenText ⟨done.reverse, .ended⟩]
  | .numeral part n =>
    if part.complete then [.numeral n.finish] else [.broken ⟨[], .endedInNumber⟩]

/-- Four bytes after `\u` are taken together; fewer than four at the end are an early end. -/
def hexFull (digits : List Char) : Bool :=
  4 ≤ digits.foldl (fun n c => n + c.utf8Size) 0

/-- Reads a text from where it stands. -/
def scan : Scan → List Char → List Token
  | s, [] => s.finish
  | .between, c :: cs =>
    match Scan.start c with
    | some (ts, s) => ts ++ scan s cs
    | none => [.broken ⟨[], .malformed⟩]
  | .word token left, c :: cs =>
    match left with
    | [] => [.broken ⟨[], .malformed⟩]
    | [l] => if c = l then token :: scan .between cs else [.broken ⟨[], .malformed⟩]
    | l :: left => if c = l then scan (.word token left) cs else [.broken ⟨[], .malformed⟩]
  | .text done, c :: cs =>
    if c = '"' then .text done.reverse :: scan .between cs
    else if c = '\\' then scan (.escape done) cs
    else if c.toNat < 0x20 then [.brokenText ⟨done.reverse, .malformed⟩]
    else scan (.text (.char c :: done)) cs
  | .escape done, c :: cs =>
    if c = 'u' then scan (.hex done []) cs
    else
      match shortEscape? c with
      | some e => scan (.text (.char e :: done)) cs
      | none => [.brokenText ⟨done.reverse, .malformed⟩]
  | .hex done digits, c :: cs =>
    let digits := digits ++ [c]
    if hexFull digits then
      match hexValue? digits with
      | some unit => scan (.text (Piece.ofUnit unit :: done)) cs
      | none => [.brokenText ⟨done.reverse, .malformed⟩]
    else scan (.hex done digits) cs
  | .numeral part n, c :: cs =>
    match Numeral.step part n c with
    | .extended part n => scan (.numeral part n) cs
    | .bad => [.broken ⟨[], .malformed⟩]
    | .over =>
      match Scan.start c with
      | some (ts, s) => .numeral n.finish :: (ts ++ scan s cs)
      | none => [.numeral n.finish, .broken ⟨[], .malformed⟩]

/-- The tokens of a text. -/
def tokens (text : List Char) : List Token := scan .between text

/-! ### The meaning of strings and numbers -/

/-- The text that pieces spell: a high surrogate joins with a low one right after it, any other
surrogate spells nothing.  `none` also for a high surrogate at the end. -/
def Piece.spell? : List Piece → Option (List Char)
  | [] => some []
  | .char c :: rest => (spell? rest).map (c :: ·)
  | .surrogate hi :: .surrogate lo :: rest =>
    if hi < 0xDC00 ∧ 0xDC00 ≤ lo then
      (spell? rest).map (Char.ofNat (0x10000 + (hi - 0xD800) * 0x400 + (lo - 0xDC00)) :: ·)
    else none
  | .surrogate _ :: _ => none

/-- Whether the pieces spell text as far as they go, a high surrogate at the very end waiting for
its other half. -/
def Piece.spellable : List Piece → Bool
  | [] => true
  | .char _ :: rest => spellable rest
  | [.surrogate hi] => hi < 0xDC00
  | .surrogate hi :: .surrogate lo :: rest => hi < 0xDC00 && 0xDC00 ≤ lo && spellable rest
  | .surrogate _ :: .char _ :: _ => false

/-- Why a reader fails at a break: an unspellable string before it is malformed. -/
def Break.reason (b : Break) : Stop := if Piece.spellable b.pieces then b.why else .malformed

/-- Whole numbers are exact between the least signed and the greatest unsigned 64-bit number. -/
def isExact (n : Int) : Bool := -(bound63 : Int) ≤ n && n < bound64

/-- Takes digits while the number read so far fits in 64 bits; the digits left over. -/
def takeDigits (n : Nat) : List Nat → Nat × List Nat
  | [] => (n, [])
  | d :: ds => if 10 * n + d < bound64 then takeDigits (10 * n + d) ds else (n, d :: ds)

/-- The value of a list of decimal digits. -/
def digitsValue (ds : List Nat) : Nat := ds.foldl (fun n d => 10 * n + d) 0

/-- The number that a numeral denotes; `none` if it is beyond the largest double.  A whole numeral
that is exact denotes itself.  For all others the digits that fit in 64 bits are converted to a
double and scaled by a power of ten, further digits counting only as a power. -/
def Numeral.value? (n : Numeral) : Option Number :=
  let (kept, left) := takeDigits 0 n.whole
  let signed (x : Binary64) : Number := .real (if n.negative then x.neg else x)
  if !n.pointed ∧ left.isEmpty ∧ !(n.negative ∧ (kept = 0 ∨ bound63 < kept)) then
    some (.whole (if n.negative then -(kept : Int) else kept))
  else
    let (kept', unread) := takeDigits kept n.fraction
    let places : Int := (left.length : Int) - ((n.fraction.length : Int) - unread.length)
    let exponent : Int := match n.exponent with
      | none => 0
      | some (negative, ds) => if negative then -(digitsValue ds : Int) else digitsValue ds
    ((Binary64.ofNat kept').scaleByTen (places + exponent)).map signed

end Courier.Json

import Courier.Cron.Field
import Courier.Number.Width

/-!
The written form of cron schedules.

A schedule is six or seven fields (second, minute, hour, day of the month, month, day of the week
and perhaps the year) or one of five shorthands.  A field is a list of items with commas between
them.  Blanks may stand around every number and name and around fields, and need not stand between
fields.  Every reader takes the longest first alternative that fits and never goes back on it.
-/

namespace Courier.Cron

/-- What a reader of a part gives: the part and the rest of the text. -/
abbrev Reader (α : Type) := List Char → Option (α × List Char)

/-- The blanks of the grammar. -/
def isBlank (c : Char) : Bool := c = ' ' || c = '\t' || c = '\r' || c = '\n'

/-- Removes blanks. -/
def skipBlanks (cs : List Char) : List Char := cs.dropWhile isBlank

/-- Whether a character is a decimal digit. -/
def isDigit (c : Char) : Bool := '0' ≤ c && c ≤ '9'

/-- Whether a character is a letter of a name. -/
def isLetter (c : Char) : Bool := ('a' ≤ c && c ≤ 'z') || ('A' ≤ c && c ≤ 'Z')

/-- One given character. -/
def char (c : Char) : Reader PUnit
  | d :: cs => if c = d then some ((), cs) else none
  | [] => none

/-- The value of decimal digits. -/
def value (digits : List Char) : Nat := digits.foldl (fun n c => 10 * n + (c.toNat - '0'.toNat)) 0

/-- A number of at most 32 bits, with blanks around it. -/
def number : Reader Nat := fun cs =>
  let cs := skipBlanks cs
  let digits := cs.takeWhile isDigit
  if digits.isEmpty ∨ bound32 ≤ value digits then none
  else some (value digits, skipBlanks (cs.dropWhile isDigit))

/-- A name, with blanks around it. -/
def name : Reader String := fun cs =>
  let cs := skipBlanks cs
  let letters := cs.takeWhile isLetter
  if letters.isEmpty then none
  else some (String.ofList letters, skipBlanks (cs.dropWhile isLetter))

/-- Two of a kind with a dash between them. -/
def dashed {α : Type} (r : Reader α) : Reader (α × α) := fun cs => do
  let (a, cs) ← r cs
  let (_, cs) ← char '-' cs
  let (b, cs) ← r cs
  return ((a, b), cs)

/-- A stretch of a field. -/
def span (u : Unit) : Reader Span := fun cs =>
  (if u.mayBeOpen then (char '?' cs).map fun (_, r) => (Span.all, r) else none) <|>
  ((char '*' cs).map fun (_, r) => (Span.all, r)) <|>
  ((dashed number cs).map fun ((a, b), r) => (Span.range a b, r)) <|>
  ((number cs).map fun (n, r) => (Span.point n, r)) <|>
  ((dashed name cs).map fun ((a, b), r) => (Span.named a b, r))

/-- A stretch and a step. -/
def stepped (u : Unit) : Reader Item := fun cs => do
  let (s, cs) ← span u cs
  let (_, cs) ← char '/' cs
  let (n, cs) ← number cs
  return (.stepped s n, cs)

/-- A part of a field. -/
def item (u : Unit) : Reader Item := fun cs =>
  stepped u cs <|>
  ((span u cs).map fun (s, r) => (Item.plain s, r)) <|>
  ((name cs).map fun (n, r) => (Item.word n, r))

/-- Further items, each after a comma; a comma without an item is left where it is. -/
def moreItems (u : Unit) : Nat → List Char → List Item × List Char
  | 0, cs => ([], cs)
  | n + 1, cs =>
    match (char ',' cs).bind fun (_, r) => item u r with
    | some (i, r) =>
      let (is, r) := moreItems u n r
      (i :: is, r)
    | none => ([], cs)

/-- The items of a field, with blanks around them. -/
def items (u : Unit) : Reader (List Item) := fun cs => do
  let (i, cs) ← item u (skipBlanks cs)
  let (is, cs) := moreItems u cs.length cs
  return (i :: is, skipBlanks cs)

/-- The numbers of a field. -/
def field (u : Unit) : Reader (List Nat) := fun cs => do
  let (is, cs) ← items u cs
  let ns ← ordinals? u is
  return (ns, cs)

end Courier.Cron

/-!
Cutting a text into chunks of bounded length.

A text that is too long is cut at newlines: lines are packed into a chunk as long as they fit, and
the newline between two chunks is dropped.  A line that is itself too long is cut into pieces of the
greatest length.  Lengths are counted in characters.
-/

namespace Courier.Chunk

/-- The greatest length of a text message. -/
def messageMax : Nat := 4096

/-- The greatest length of a caption. -/
def captionMax : Nat := 1024

/-- The lines of a text. -/
def lines : List Char → List (List Char)
  | [] => [[]]
  | c :: cs =>
    if c = '\n' then [] :: lines cs
    else
      match lines cs with
      | [] => [[c]]
      | l :: ls => (c :: l) :: ls

/-- Pieces of length `max`, the last one shorter if need be. -/
def pieces (max : Nat) (cs : List Char) : List (List Char) :=
  if max = 0 ∨ (cs.drop max).isEmpty then [cs] else cs.take max :: pieces max (cs.drop max)
termination_by cs.length
decreasing_by simp_all; omega

/-- A chunk, unless it is empty. -/
def flush (current : List Char) : List (List Char) := if current.isEmpty then [] else [current]

/-- Packs lines behind the chunk that is being filled. -/
def pack (max : Nat) (current : List Char) : List (List Char) → List (List Char)
  | [] => flush current
  | line :: lines =>
    if line.length > max then
      let ps := pieces max line
      flush current ++ ps.dropLast ++ pack max (ps.getLastD []) lines
    else if current.isEmpty then pack max line lines
    else if current.length + 1 + line.length > max then current :: pack max line lines
    else pack max (current ++ '\n' :: line) lines

/-- The chunks of a text. -/
def split (max : Nat) (cs : List Char) : List (List Char) :=
  if cs.length ≤ max then [cs] else pack max [] (lines cs)

/-- The chunks of a text; there are none of length zero for a text that is not empty. -/
def split? (max : Nat) (cs : List Char) : Option (List (List Char)) :=
  if max = 0 ∧ cs ≠ [] then none else some (split max cs)

end Courier.Chunk

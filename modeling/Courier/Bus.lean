import Courier.Message

/-!
The bus: every envelope goes to everyone who listens.

A `Bus` keeps the latest envelopes, as many as its capacity, and for every reader how many envelopes
have gone by.  A reader who is too slow misses the oldest ones and is told how many.  Envelopes
without readers are dropped.
-/

namespace Courier

/-- The name of a reader. -/
abbrev ReaderId := Nat

/-- A bus with its readers. -/
structure Bus where
  /-- How many envelopes are kept. -/
  capacity : Nat
  /-- How many envelopes there have been. -/
  count : Nat := 0
  /-- The envelopes kept, newest first. -/
  kept : List String := []
  /-- The readers, with the number of envelopes that each one is past. -/
  readers : List (ReaderId × Nat) := []
  /-- The name of the next reader. -/
  fresh : ReaderId := 0
  /-- Whether nothing more can be published. -/
  closed : Bool := false

/-- What a reader gets. -/
inductive Received
  | envelope (text : String)
  /-- So many envelopes were missed. -/
  | missed (count : Nat)
  /-- Nothing more will come. -/
  | closed
deriving DecidableEq

namespace Bus

/-- A bus that keeps at least so many envelopes; the capacity is a power of two. -/
def new (capacity : Nat) : Bus := { capacity := capacity.nextPowerOfTwo }

/-- A bus for some envelopes, and for one at least; there is none for `2^63` or more.  Memory is not
modelled: a smaller bus may still be too large for the machine. -/
def new? (capacity : Nat) : Option Bus :=
  let capacity := max capacity 1
  if bound63 ≤ capacity then none else some (.new capacity)

/-- Adds a reader, who gets what is published from now on. -/
def subscribe (b : Bus) : ReaderId × Bus :=
  (b.fresh, { b with readers := b.readers ++ [(b.fresh, b.count)], fresh := b.fresh + 1 })

/-- Removes a reader. -/
def unsubscribe (b : Bus) (id : ReaderId) : Bus :=
  { b with readers := b.readers.filter fun r => r.1 ≠ id }

/-- Publishes an envelope; also says how many readers it reaches. -/
def publishText (b : Bus) (text : String) : Nat × Bus :=
  if b.readers.isEmpty then (0, b)
  else
    (b.readers.length,
      { b with count := b.count + 1, kept := (text :: b.kept).take b.capacity })

/-- Publishes a message. -/
def publish (b : Bus) (m : Message) : Nat × Bus := b.publishText m.text

/-- Ends publishing. -/
def close (b : Bus) : Bus := { b with closed := true }

/-- What waits for a reader who is past some envelopes, in order. -/
def pending (b : Bus) (past : Nat) : List Received :=
  let behind := b.count - past
  let missed := behind - b.kept.length
  (if missed = 0 then [] else [.missed missed]) ++
    ((b.kept.take behind).reverse.map .envelope) ++
    (if b.closed then [.closed] else [])

/-- Gives a reader everything that waits for it. -/
def receive (b : Bus) (id : ReaderId) : List Received × Bus :=
  match b.readers.lookup id with
  | none => ([], b)
  | some past =>
    (b.pending past,
      { b with readers := b.readers.map fun r => if r.1 = id then (id, b.count) else r })

end Bus

end Courier

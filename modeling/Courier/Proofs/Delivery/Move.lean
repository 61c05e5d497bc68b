import Courier.Delivery.Worker

/-!
What workers do.

A `Move` is one thing that a worker does without being interrupted, and `Worker.move?` is the worker
after it.  Nothing is said about which of its moves a worker prefers or when it makes them, so that
whatever holds after all moves holds for every way of running a worker.  A `Deed` is what befell one
entry; `Worker.deeds` are the deeds of a move.

`Worker.Moves` says once what a move can do: it takes up the first entry of a queue, finds at a tick
that there is nothing to do, closes, takes an answer and goes on or puts the entry back, or drops
what it has under the signal.  That there is nothing else is `Worker.moves_of_move?`.  Every
invariant of a worker is proved by cases on `Moves`, and no proof opens the definitions of the moves
again.
-/

namespace Courier.Delivery

/-- A thing that happens to an entry.

* `accepted`: it is taken in.
* `sent`: the call for its first unit is made.
* `answered`: that call is answered.
* `finished`: nothing of it is left to deliver.
* `dropped`: a shutdown throws it away. -/
inductive Turn
  | accepted
  | sent
  | answered (outcome : Outcome)
  | finished
  | dropped
deriving DecidableEq

/-- Something that happened to an entry of a recipient; the entry is as it was then. -/
structure Deed (ε : Type) where
  turn : Turn
  time : Nat
  recipient : Int
  item : ε

/-- What has happened, newest first. -/
abbrev Log (ε : Type) := List (Deed ε)

/-- One thing that a worker does.

* `wake`: it starts on the first immediate entry.
* `tick`: it takes a tick.
* `answer`: it takes the answer to its call.
* `halt`: it ends because of the shutdown signal. -/
inductive Move
  | wake
  | tick
  | answer (outcome : Outcome)
  | halt
deriving DecidableEq

namespace Worker

variable {ε : Type} [Deliverable ε]

/-- The worker after a move at an instant, if it can make it; `stop` says whether the shutdown
signal is raised. -/
def move? (stop : Bool) (now : Nat) (w : Worker ε) : Move → Option (Worker ε)
  | .wake => if w.isFree && !w.immediate.isEmpty then some w.takeImmediate else none
  | .tick => if w.isFree && w.ticker.isDue now then some (w.tick now) else none
  | .answer o => if !w.closed && w.inHand.isSome then some (w.answer now o) else none
  | .halt => if w.isFree && stop then some w.halt else none

/-- What happens to an entry that the worker starts on or goes on with. -/
def takeUp (now : Nat) (w : Worker ε) (x : ε) : Deed ε :=
  ⟨if Deliverable.isDone x then .finished else .sent, now, w.recipient, x⟩

/-- The deeds of a move, newest first. -/
def deeds (now : Nat) (w : Worker ε) : Move → Log ε
  | .wake => (w.immediate.head?.map (w.takeUp now)).toList
  | .tick => (w.delayed.head?.map (w.takeUp now)).toList
  | .answer o =>
    w.inHand.toList.flatMap fun x =>
      let (y, wait) := Deliverable.answer x o
      (if wait = 0 then [w.takeUp now y] else []) ++ [⟨.answered o, now, w.recipient, x⟩]
  | .halt => (w.delayed ++ w.immediate).map fun x => ⟨.dropped, now, w.recipient, x⟩

/-! ### What a move can do -/

/-- `w.Moves stop now m w' ds`: by the move `m` the open worker `w` becomes `w'`, with the deeds
`ds`. -/
inductive Moves (stop : Bool) (now : Nat) (w : Worker ε) : Move → Worker ε → Log ε → Prop
  | wake {x rest} (hopen : w.closed = false) (hhand : w.inHand = none)
      (hq : w.immediate = x :: rest) :
      Moves stop now w .wake ({ w with immediate := rest }.hold x) [w.takeUp now x]
  | tick {x rest} (hopen : w.closed = false) (hhand : w.inHand = none)
      (hdue : w.ticker.next ≤ now) (hq : w.delayed = x :: rest) :
      Moves stop now w .tick
        ({ w with ticker := w.ticker.taken now, delayed := rest }.hold x) [w.takeUp now x]
  | idle (hopen : w.closed = false) (hhand : w.inHand = none) (hdue : w.ticker.next ≤ now)
      (hq : w.delayed = []) (himm : w.immediate ≠ []) :
      Moves stop now w .tick { w with ticker := w.ticker.taken now } []
  | close (hopen : w.closed = false) (hhand : w.inHand = none) (hdue : w.ticker.next ≤ now)
      (hq : w.delayed = []) (himm : w.immediate = []) :
      Moves stop now w .tick { w with ticker := w.ticker.taken now, closed := true } []
  | onward {x o} (hopen : w.closed = false) (hhand : w.inHand = some x)
      (hwait : (Deliverable.answer x o).2 = 0) :
      Moves stop now w (.answer o) (w.hold (Deliverable.answer x o).1)
        [w.takeUp now (Deliverable.answer x o).1, ⟨.answered o, now, w.recipient, x⟩]
  | back {x o} (hopen : w.closed = false) (hhand : w.inHand = some x)
      (hwait : (Deliverable.answer x o).2 ≠ 0) :
      Moves stop now w (.answer o)
        { w with
          inHand := none
          delayed := (Deliverable.answer x o).1 :: w.delayed
          ticker := w.ticker.postponed now (Deliverable.answer x o).2 }
        [⟨.answered o, now, w.recipient, x⟩]
  | halt (hopen : w.closed = false) (hhand : w.inHand = none) (hstop : stop = true) :
      Moves stop now w .halt w.halt
        ((w.delayed ++ w.immediate).map fun x => ⟨.dropped, now, w.recipient, x⟩)

omit [Deliverable ε] in
theorem isFree_iff {w : Worker ε} : w.isFree = true ↔ w.closed = false ∧ w.inHand = none := by
  simp [isFree]

/-- Every move does one of the things listed. -/
theorem moves_of_move? {stop : Bool} {now : Nat} {w w' : Worker ε} {m : Move}
    (h : w.move? stop now m = some w') : w.Moves stop now m w' (w.deeds now m) := by
  -- each move is opened here, once and for all
  cases m with
  | wake =>
    simp only [move?, Option.ite_none_right_eq_some, Bool.and_eq_true, isFree_iff] at h
    obtain ⟨⟨⟨hopen, hhand⟩, himm⟩, hw⟩ := h
    rcases hq : w.immediate with - | ⟨x, rest⟩
    · simp [hq] at himm
    · have hw' : w' = { w with immediate := rest }.hold x := by
        simpa [takeImmediate, hq] using hw.symm
      rw [hw', show w.deeds now .wake = [w.takeUp now x] by simp [deeds, hq]]
      exact .wake hopen hhand hq
  | tick =>
    simp only [move?, Option.ite_none_right_eq_some, Bool.and_eq_true, isFree_iff,
      Time.Ticker.isDue, decide_eq_true_eq] at h
    obtain ⟨⟨⟨hopen, hhand⟩, hdue⟩, hw⟩ := h
    rcases hq : w.delayed with - | ⟨x, rest⟩
    · have hds : w.deeds now .tick = [] := by simp [deeds, hq]
      by_cases himm : w.immediate = []
      · have hw' : w' = { w with ticker := w.ticker.taken now, closed := true } := by
          simpa [tick, hq, himm] using hw.symm
        rw [hw', hds]
        exact .close hopen hhand hdue hq himm
      · have hw' : w' = { w with ticker := w.ticker.taken now } := by
          simpa [tick, hq, himm] using hw.symm
        rw [hw', hds]
        exact .idle hopen hhand hdue hq himm
    · have hw' : w' = { w with ticker := w.ticker.taken now, delayed := rest }.hold x := by
        simpa [tick, hq] using hw.symm
      rw [hw', show w.deeds now .tick = [w.takeUp now x] by simp [deeds, hq]]
      exact .tick hopen hhand hdue hq
  | answer o =>
    simp only [move?, Option.ite_none_right_eq_some, Bool.and_eq_true] at h
    obtain ⟨⟨hopen, hsome⟩, hw⟩ := h
    replace hopen : w.closed = false := by simpa using hopen
    obtain ⟨x, hhand⟩ := Option.isSome_iff_exists.mp hsome
    by_cases hwait : (Deliverable.answer x o).2 = 0
    · have hw' : w' = w.hold (Deliverable.answer x o).1 := by
        simpa [answer, hhand, hwait] using hw.symm
      rw [hw', show w.deeds now (.answer o) = [w.takeUp now (Deliverable.answer x o).1,
        ⟨.answered o, now, w.recipient, x⟩] by simp [deeds, hhand, hwait]]
      exact .onward hopen hhand hwait
    · rw [show w.deeds now (.answer o) = [⟨.answered o, now, w.recipient, x⟩] by
        simp [deeds, hhand, hwait]]
      simp only [answer, hhand, hwait, if_false, Option.some.injEq] at hw
      exact hw ▸ .back hopen hhand hwait
  | halt =>
    simp only [move?, Option.ite_none_right_eq_some, Bool.and_eq_true, isFree_iff] at h
    obtain ⟨⟨⟨hopen, hhand⟩, hstop⟩, hw⟩ := h
    obtain rfl := Option.some.inj hw
    exact .halt hopen hhand hstop

/-- A closed worker does nothing any more. -/
theorem move?_eq_none_of_closed {stop : Bool} {now : Nat} {w : Worker ε} (h : w.closed = true)
    (m : Move) : w.move? stop now m = none := by
  cases m <;> simp [move?, isFree, h]

end Worker

end Courier.Delivery

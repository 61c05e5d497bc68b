import Courier.Delivery.Pool
import Courier.Proofs.Delivery.Move

/-!
The pool and its workers under everything that may happen, in any order.

A `Depot` is a pool, perhaps with a pass under way.  An `Event` is one atomic thing: an entry is
added, a pass begins or goes on by one step, a worker makes a move, time passes, the shutdown signal
changes, the pool drops what waits.  Events come in any order; one that cannot happen changes
nothing.  In particular entries are added and workers move, and close, between the steps by which a
pass hands entries over.  Passes do not overlap: they are made by one loop.

A pass takes three steps for a recipient: its entries are withdrawn, a worker is engaged for them,
and they are given to it.  In between they are in the hand-over of the pass (`Pass.handed`), which
belongs to the depot as the slots do, so that nothing is out of sight.

The depot is the same for bare entries and for entries with something attached; `book` says what is
attached to an entry when it comes in.  Theorems are proved with entries that carry a number and a
history, and hold for bare entries since nothing looks at either.

The log has the newest deed first.

Main statement: a pass during which nothing else happens is `Pool.reconcileIn` (`run_pass`), so the
steps of this module are those of the pool.
-/

namespace Courier.Delivery

/-- Entries that a pass has taken out of their slot.

* `engaged`: whether a worker has been found for them. -/
structure Handoff (ε : Type) where
  recipient : Int
  entries : List ε
  engaged : Bool

/-- A pass of the pool under way.

* `room`: how many more workers may be started.
* `left`: the recipients that are still to come. -/
structure Pass (ε : Type) where
  room : Nat
  left : List Int
  handoff : Option (Handoff ε) := none

/-- The entries of a recipient that a pass has taken out of their slot. -/
def Pass.handed {ε : Type} (p : Pass ε) (recipient : Int) : List ε :=
  match p.handoff with
  | some h => if h.recipient = recipient then h.entries else []
  | none => []

/-- A pool at work.

* `stop`: whether the shutdown signal is raised.
* `count`: how many entries have come in. -/
structure Depot (ε : Type) where
  pool : Pool ε
  pass : Option (Pass ε) := none
  stop : Bool := false
  now : Nat := 0
  count : Nat := 0
  log : Log ε := []

/-- Something that happens to a depot.

* `begin`: a pass begins that will serve the recipients in some order.
* `proceed`: the pass under way goes on by one step.
* `clear`: the pool drops what waits, because of the shutdown signal. -/
inductive Event (π : Type)
  | add (recipient : Int) (e : Entry π)
  | begin (order : List Int)
  | proceed
  | move (recipient : Int) (m : Move)
  | clear
  | signal (raised : Bool)
  | elapse (ms : Nat)

namespace Depot

variable {ε π : Type}

/-- A depot with an empty pool. -/
def start (max period : Nat) : Depot ε := { pool := { max, period } }

variable [Deliverable ε]

/-- The next step of a pass: entries are withdrawn from a slot, a worker is engaged for them, they
are given to it. -/
def proceed (d : Depot ε) (p : Pass ε) : Depot ε :=
  match p.handoff with
  | none =>
    match p.left with
    | [] => { d with pass := none }
    | r :: left =>
      let (entries, pool) := d.pool.withdraw r
      { d with
        pool
        pass := some { p with
          left, handoff := if entries.isEmpty then none else some ⟨r, entries, false⟩ } }
  | some h =>
    if h.engaged then
      { d with
        pool := d.pool.give h.recipient h.entries, pass := some { p with handoff := none } }
    else
      match d.pool.engage p.room d.now h.recipient with
      | some (pool, room) =>
        { d with pool, pass := some { p with room, handoff := some { h with engaged := true } } }
      | none =>
        { d with
          pool := d.pool.requeue h.recipient h.entries, pass := some { p with handoff := none } }

/-- The steps of a pass concern nothing but the pool and the pass. -/
theorem proceed_frame (d : Depot ε) (p : Pass ε) :
    ∃ pool pass, d.proceed p = { d with pool, pass } := by
  unfold proceed
  split
  · split <;> exact ⟨_, _, rfl⟩
  · split
    · exact ⟨_, _, rfl⟩
    · split <;> exact ⟨_, _, rfl⟩

variable (book : Nat → Int → Entry π → ε)

/-- The depot after an event. -/
def step (d : Depot ε) : Event π → Depot ε
  | .add r e =>
    let x := book d.count r e
    { d with
      pool := d.pool.add r x, count := d.count + 1, log := ⟨.accepted, d.now, r, x⟩ :: d.log }
  | .begin order =>
    match d.pass with
    | some _ => d
    | none => { d with pool := d.pool.sweep, pass := some ⟨d.pool.sweep.room, order, none⟩ }
  | .proceed =>
    match d.pass with
    | some p => d.proceed p
    | none => d
  | .move r m =>
    match d.pool.worker? r with
    | none => d
    | some w =>
      match w.move? d.stop d.now m with
      | none => d
      | some w' => { d with pool := d.pool.setWorker w', log := w.deeds d.now m ++ d.log }
  | .clear =>
    if d.stop then
      { d with
        pool := d.pool.clear
        log := (d.pool.waiting.flatMap fun slot =>
          slot.2.map fun x => ⟨.dropped, d.now, slot.1, x⟩) ++ d.log }
    else d
  | .signal raised => { d with stop := raised }
  | .elapse ms => { d with now := d.now + ms }

/-- The depot after some events. -/
def run (d : Depot ε) (events : List (Event π)) : Depot ε := events.foldl (step book) d

@[simp] theorem run_nil (d : Depot ε) : d.run book [] = d := rfl

@[simp] theorem run_cons (d : Depot ε) (e : Event π) (events : List (Event π)) :
    d.run book (e :: events) = (d.step book e).run book events := rfl

theorem run_append (d : Depot ε) (events later : List (Event π)) :
    d.run book (events ++ later) = (d.run book events).run book later :=
  List.foldl_append

theorem run_concat (d : Depot ε) (events : List (Event π)) (e : Event π) :
    d.run book (events ++ [e]) = (d.run book events).step book e := by
  rw [run_append, run_cons, run_nil]

/-- The clock is moved by the passing of time only, and the signal changes only by itself. -/
theorem clock_step (d : Depot ε) (e : Event π) :
    ((d.step book e).now = d.now ∧ (d.step book e).stop = d.stop) ∨
      (∃ ms, e = .elapse ms) ∨ ∃ raised, e = .signal raised := by
  -- only two of the events have to do with the clock or the signal
  cases e with
  | elapse ms => exact .inr (.inl ⟨ms, rfl⟩)
  | signal raised => exact .inr (.inr ⟨raised, rfl⟩)
  | add r x => exact .inl ⟨rfl, rfl⟩
  | proceed =>
    left
    simp only [step]
    split
    · rename_i p _
      obtain ⟨pool, pass, hframe⟩ := d.proceed_frame p
      rw [hframe]
      exact ⟨rfl, rfl⟩
    · exact ⟨rfl, rfl⟩
  | move r m =>
    left
    simp only [step]
    split
    · exact ⟨rfl, rfl⟩
    · split <;> exact ⟨rfl, rfl⟩
  | begin | clear =>
    left
    simp only [step]
    split <;> exact ⟨rfl, rfl⟩

/-! ### A pass without interruption -/

/-- Three steps serve a recipient for whom entries wait, one step serves any other. -/
theorem run_handOver (d : Depot ε) (room : Nat) (r : Int) (left : List Int)
    (h : d.pass = some ⟨room, r :: left, none⟩) :
    ∃ n, d.run book (List.replicate n .proceed) =
      { d with
        pool := (Pool.handOver d.now d.pool room r).1
        pass := some ⟨(Pool.handOver d.now d.pool room r).2, left, none⟩ } := by
  by_cases hempty : (d.pool.waiting.entries r).isEmpty
  · -- nothing waits
    refine ⟨1, ?_⟩
    simp [step, proceed, h, Pool.handOver, Pool.withdraw, hempty]
  · rcases hengage : (d.pool.withdraw r).2.engage room d.now r with - | ⟨q, room'⟩
    · -- there is no room
      refine ⟨2, ?_⟩
      simp only [Pool.withdraw] at hengage
      simp [step, proceed, h, Pool.handOver, Pool.withdraw, hempty, hengage, List.replicate]
    · -- a worker takes them
      refine ⟨3, ?_⟩
      simp only [Pool.withdraw] at hengage
      simp [step, proceed, h, Pool.handOver, Pool.withdraw, hempty, hengage, List.replicate]

/-- The steps of a pass that has begun. -/
theorem run_steps (d : Depot ε) (room : Nat) (left : List Int)
    (h : d.pass = some ⟨room, left, none⟩) :
    ∃ n, d.run book (List.replicate n .proceed) =
      { d with
        pool := (left.foldl (fun s r => Pool.handOver d.now s.1 s.2 r) (d.pool, room)).1
        pass := none } := by
  induction left generalizing d room with
  | nil => exact ⟨1, by simp [step, proceed, h]⟩
  | cons r left ih =>
    obtain ⟨n, hn⟩ := run_handOver book d room r left h
    obtain ⟨m, hm⟩ := ih { d with
      pool := (Pool.handOver d.now d.pool room r).1
      pass := some ⟨(Pool.handOver d.now d.pool room r).2, left, none⟩ } _ rfl
    refine ⟨n + m, ?_⟩
    rw [← List.replicate_append_replicate, run_append, hn, hm]
    rfl

/-- A pass during which nothing else happens is a pass of the pool. -/
theorem run_pass (d : Depot ε) (order : List Int) (h : d.pass = none) :
    ∃ n, d.run book (.begin order :: List.replicate n .proceed) =
      { d with pool := Pool.reconcileIn order d.pool d.now } := by
  obtain ⟨n, hn⟩ := run_steps book (d.step book (.begin order)) d.pool.sweep.room order
    (by simp [step, h])
  refine ⟨n, ?_⟩
  rw [run_cons, hn]
  simp [step, h, Pool.reconcileIn]

end Depot

end Courier.Delivery

import Courier.Proofs.Delivery.Copies

/-!
One worker under everything that may happen to it, in any order.

A `Shift` is a worker with a clock and a log.  The worker goes through its immediate queue until it
is empty, and only then it polls: it looks out for a tick, the shutdown signal, or word that entries
have come in, which sends it back to the immediate queue.  `polling` says that it does.  Entries are
put in, time passes and the signal changes at any moment; an event that cannot happen changes
nothing.

A shift says less than a bay about what is around the worker and more about the worker: a bay has
the pool and its passes, but its worker may take a tick while it has immediate entries.  What is to
be proved about the order and the delays of one worker is proved of shifts.

`Shift.Step` lists what can happen, and `Shift.run_induction` is the induction over runs: a property
that holds at the start and is kept by every step holds of every run.

`Shift.Sound` is what holds of every run without regard to order and time: numbers tell entries
apart, calls are made for one entry at a time, and each queue holds what belongs there.  The other
invariants of shifts are proved under it.
-/

namespace Courier.Delivery

/-- A worker at work.

* `polling`: whether the worker has found no immediate entry and waits for something to happen.
* `stop`: whether the shutdown signal is raised.
* `count`: how many entries have come in. -/
structure Shift (ε : Type) where
  worker : Worker ε
  polling : Bool := false
  stop : Bool := false
  now : Nat := 0
  count : Nat := 0
  log : Log ε := []

/-- Something that happens during a shift.

* `put`: entries are put in.
* `poll`: the worker finds no immediate entry.
* `rouse`: the worker has word that entries have come in. -/
inductive Occasion (π : Type)
  | put (entries : List (Entry π))
  | poll
  | rouse
  | move (m : Move)
  | signal (raised : Bool)
  | elapse (ms : Nat)

variable {ε π : Type}

/-- Entries that come in together, numbered one after the other. -/
def bookAll (book : Nat → Int → Entry π → ε) (n : Nat) (r : Int) : List (Entry π) → List ε
  | [] => []
  | e :: es => book n r e :: bookAll book (n + 1) r es

namespace Shift

/-- The shift of a new worker. -/
def start (r : Int) (period : Nat) : Shift ε := { worker := .new r period 0 }

/-- Whether the worker may make a move: it takes immediate entries unless it polls, and ticks and
the shutdown signal only when it polls. -/
def may (s : Shift ε) : Move → Bool
  | .wake => !s.polling
  | .answer _ => true
  | .tick | .halt => s.polling

variable [Deliverable ε] (book : Nat → Int → Entry π → ε)

/-- The shift after something has happened. -/
def step (s : Shift ε) : Occasion π → Shift ε
  | .put entries =>
    let xs := bookAll book s.count s.worker.recipient entries
    match s.worker.put xs with
    | .ok w =>
      { s with
        worker := w
        count := s.count + entries.length
        log := (xs.map fun x => ⟨.accepted, s.now, s.worker.recipient, x⟩).reverse ++ s.log }
    | .error _ => s
  | .poll => if s.worker.isFree && s.worker.immediate.isEmpty then { s with polling := true } else s
  | .rouse => { s with polling := false }
  | .move m =>
    match s.worker.move? s.stop s.now m with
    | some w =>
      if s.may m then
        { s with worker := w, polling := false, log := s.worker.deeds s.now m ++ s.log }
      else s
    | none => s
  | .signal raised => { s with stop := raised }
  | .elapse ms => { s with now := s.now + ms }

/-- The shift after some things have happened. -/
def run (s : Shift ε) (events : List (Occasion π)) : Shift ε := events.foldl (step book) s

@[simp] theorem run_nil (s : Shift ε) : s.run book ([] : List (Occasion π)) = s := rfl

@[simp] theorem run_cons (s : Shift ε) (e : Occasion π) (events : List (Occasion π)) :
    s.run book (e :: events) = (s.step book e).run book events := rfl

theorem run_append (s : Shift ε) (events later : List (Occasion π)) :
    s.run book (events ++ later) = (s.run book events).run book later :=
  List.foldl_append

/-- A tick starts on the first delayed entry. -/
theorem step_tick {s : Shift ε} {x : ε} {rest : List ε} (hmay : s.polling = true)
    (hopen : s.worker.closed = false) (hhand : s.worker.inHand = none)
    (hq : s.worker.delayed = x :: rest) (hdue : s.worker.ticker.next ≤ s.now) :
    s.step book (.move .tick : Occasion π) = { s with
      worker := { s.worker with ticker := s.worker.ticker.taken s.now, delayed := rest }.hold x
      polling := false, log := s.worker.takeUp s.now x :: s.log } := by
  simp [step, Worker.move?, Worker.isFree, hopen, hhand, hq, Worker.tick, may, hmay,
    Worker.deeds, Time.Ticker.isDue, hdue]

/-! ### What can happen -/

/-- What can happen during a shift.

* `quiet`: nothing happens to entries; the worker polls only when it has no immediate entries. -/
inductive Step (s : Shift ε) : Shift ε → Prop
  | put (entries : List (Entry π)) {w : Worker ε}
      (hput : s.worker.put (bookAll book s.count s.worker.recipient entries) = .ok w) :
      Step s { s with
        worker := w
        count := s.count + entries.length
        log := ((bookAll book s.count s.worker.recipient entries).map
          fun x => ⟨.accepted, s.now, s.worker.recipient, x⟩).reverse ++ s.log }
  | move {m : Move} {w : Worker ε} {ds : Log ε} (hmay : s.may m = true)
      (hmoves : s.worker.Moves s.stop s.now m w ds) :
      Step s { s with worker := w, polling := false, log := ds ++ s.log }
  | quiet (polling stop : Bool) (ms : Nat)
      (hpoll : polling = true → s.polling = true ∨ s.worker.immediate = []) :
      Step s { s with polling, stop, now := s.now + ms }

theorem step_step (s : Shift ε) (e : Occasion π) : Step book s (s.step book e) := by
  have same : Step book s s := .quiet s.polling s.stop 0 .inl
  -- what cannot happen leaves the shift as it is
  cases e with
  | put entries =>
    simp only [step]
    split
    · rename_i w hput
      exact .put entries hput
    · exact same
  | poll =>
    simp only [step]
    split
    · rename_i hfree
      rw [Bool.and_eq_true] at hfree
      exact .quiet true s.stop 0 fun _ => .inr (List.isEmpty_iff.mp hfree.2)
    · exact same
  | rouse => exact .quiet false s.stop 0 fun h => by cases h
  | move m =>
    simp only [step]
    split
    · rename_i w hmove
      split
      · rename_i hmay
        exact .move hmay (Worker.moves_of_move? hmove)
      · exact same
    · exact same
  | signal raised => exact .quiet s.polling raised 0 .inl
  | elapse ms => exact .quiet s.polling s.stop ms .inl

/-- What holds at the start and is kept by every step holds of every run. -/
theorem run_induction {P : Shift ε → Prop} (r : Int) (period : Nat) (hstart : P (start r period))
    (hstep : ∀ s s', P s → Step book s s' → P s') (events : List (Occasion π)) :
    P ((start r period).run book events) := by
  induction events using List.reverseRecOn with
  | nil => exact hstart
  | append_singleton events e ih =>
    rw [run, List.foldl_append]
    exact hstep _ _ ih (step_step book _ e)

/-! ### Sound shifts -/

end Shift

theorem mem_bookAll {n : Nat} {r : Int} {es : List (Entry π)} {x : Tracked π}
    (h : x ∈ bookAll Tracked.book n r es) :
    n ≤ x.number ∧ x.number < n + es.length ∧ x = Tracked.book x.number r x.origin := by
  induction es generalizing n with
  | nil => exact absurd h List.not_mem_nil
  | cons e es ih =>
    rcases List.mem_cons.mp h with rfl | h
    · exact ⟨Nat.le_refl _, by simp [Tracked.book], rfl⟩
    · obtain ⟨hle, hlt, hbook⟩ := ih h
      refine ⟨by omega, ?_, hbook⟩
      rw [List.length_cons]
      omega

theorem pairwise_bookAll (n : Nat) (r : Int) (es : List (Entry π)) :
    ((bookAll Tracked.book n r es).map Tracked.number).Pairwise (· < ·) := by
  induction es generalizing n with
  | nil => exact List.Pairwise.nil
  | cons e es ih =>
    refine List.pairwise_cons.mpr ⟨fun k hk => ?_, ih (n + 1)⟩
    obtain ⟨x, hx, rfl⟩ := List.mem_map.mp hk
    exact (mem_bookAll hx).1

theorem copies_bookAll_le (k n : Nat) (r : Int) (es : List (Entry π)) :
    copies k (bookAll Tracked.book n r es) ≤ 1 := by
  induction es generalizing n with
  | nil => exact Nat.zero_le _
  | cons e es ih =>
    rw [bookAll, copies_cons]
    split
    · -- the others have greater numbers
      rename_i hk
      have hzero : ¬0 < copies k (bookAll Tracked.book (n + 1) r es) := by
        rw [copies_pos_iff]
        rintro ⟨x, hx, hxk⟩
        have hle := (mem_bookAll hx).1
        have hn : n = k := hk
        omega
      omega
    · rw [Nat.zero_add]
      exact ih (n + 1)

namespace Shift

/-- What is known of the entries of a shift.

* `delay`: entries do not change their class. -/
structure Known (s : Shift (Tracked π)) (x : Tracked π) : Prop where
  number_lt : x.number < s.count
  delay : x.rest.delay = x.origin.delay

/-- What holds of every shift, without regard to order and time.

* `copies_le`: no two entries have the same number. -/
structure Sound (s : Shift (Tracked π)) : Prop where
  copies_le : ∀ n, copies n s.worker.kept ≤ 1
  kept : ∀ x ∈ s.worker.kept, s.Known x
  log : ∀ a ∈ s.log, s.Known a.item
  immediate : ∀ x ∈ s.worker.immediate, x.rest.delay = false

theorem sound_start (r : Int) (period : Nat) : (start r period : Shift (Tracked π)).Sound :=
  ⟨fun _ => Nat.zero_le _, fun _ hx => absurd hx List.not_mem_nil,
    fun _ ha => absurd ha List.not_mem_nil, fun _ hx => absurd hx List.not_mem_nil⟩

/-- Entries that come in have numbers that no other entry has. -/
theorem Sound.put {s : Shift (Tracked π)} (h : s.Sound) {entries : List (Entry π)}
    {w : Worker (Tracked π)}
    (hput : s.worker.put (bookAll Tracked.book s.count s.worker.recipient entries) = .ok w) :
    Sound { s with
      worker := w
      count := s.count + entries.length
      log := ((bookAll Tracked.book s.count s.worker.recipient entries).map
        fun x => ⟨.accepted, s.now, s.worker.recipient, x⟩).reverse ++ s.log } := by
  -- the new entries have the numbers from the count on
  have hnew : ∀ x ∈ bookAll Tracked.book s.count s.worker.recipient entries,
      x.number < s.count + entries.length ∧ x.rest.delay = x.origin.delay := by
    intro x hx
    obtain ⟨-, hlt, hbook⟩ := mem_bookAll hx
    exact ⟨hlt, by rw [hbook]; rfl⟩
  refine ⟨fun n => ?_, fun x hx => ?_, fun a ha => ?_, fun x hx => ?_⟩
  · -- the new numbers are greater than all that are there
    have hsum := Worker.copies_put (n := n) hput
    have hkept := h.copies_le n
    have hbook := copies_bookAll_le n s.count s.worker.recipient entries
    show copies n w.kept ≤ 1
    by_cases hpos : 0 < copies n s.worker.kept
    · have hzero : ¬0 < copies n (bookAll Tracked.book s.count s.worker.recipient entries) := by
        rw [copies_pos_iff] at hpos ⊢
        obtain ⟨y, hy, rfl⟩ := hpos
        rintro ⟨x, hx, hxy⟩
        have hle := (mem_bookAll hx).1
        have hlt := (h.kept y hy).number_lt
        omega
      omega
    · omega
  · rcases (Worker.mem_kept_put hput).mp hx with hx | hx
    · exact ⟨Nat.lt_add_right _ (h.kept x hx).number_lt, (h.kept x hx).delay⟩
    · exact ⟨(hnew x hx).1, (hnew x hx).2⟩
  · rcases List.mem_append.mp ha with ha | ha
    · obtain ⟨x, hx, rfl⟩ := List.mem_map.mp (List.mem_reverse.mp ha)
      exact ⟨(hnew x hx).1, (hnew x hx).2⟩
    · exact ⟨Nat.lt_add_right _ (h.log a ha).number_lt, (h.log a ha).delay⟩
  · obtain ⟨-, rfl⟩ := Worker.put_eq_ok hput
    rcases List.mem_append.mp hx with hx | hx
    · exact h.immediate x hx
    · simpa using (List.mem_filter.mp hx).2

theorem Sound.move {s : Shift (Tracked π)} (h : s.Sound) {m : Move} {w : Worker (Tracked π)}
    {ds : Log (Tracked π)} (hmoves : s.worker.Moves s.stop s.now m w ds) :
    Sound { s with worker := w, polling := false, log := ds ++ s.log } := by
  have hknown := hmoves.forall_kept (P := s.Known)
    (fun x o _ hx => ⟨hx.number_lt, (x.delay_answer o).trans hx.delay⟩) h.kept
  refine ⟨fun n => ?_, fun x hx => ?_, fun a ha => ?_, fun x hx => ?_⟩
  · have hle := h.copies_le n
    have hkept := hmoves.copies_kept n
    show copies n w.kept ≤ 1
    omega
  · exact ⟨(hknown.1 x hx).number_lt, (hknown.1 x hx).delay⟩
  · rcases List.mem_append.mp ha with ha | ha
    · exact ⟨(hknown.2 a ha).number_lt, (hknown.2 a ha).delay⟩
    · exact ⟨(h.log a ha).number_lt, (h.log a ha).delay⟩
  · exact h.immediate x (hmoves.mem_immediate hx)

theorem Sound.step {s s' : Shift (Tracked π)} (h : s.Sound) (hstep : Step Tracked.book s s') :
    s'.Sound := by
  cases hstep with
  | put entries hput => exact h.put hput
  | move hmay hmoves => exact h.move hmoves
  | quiet polling stop ms hpoll =>
    exact ⟨h.copies_le, fun x hx => ⟨(h.kept x hx).number_lt, (h.kept x hx).delay⟩,
      fun a ha => ⟨(h.log a ha).number_lt, (h.log a ha).delay⟩, h.immediate⟩

/-- No entry in the queues has the number of the one in hand. -/
theorem Sound.number_ne_of_inHand {s : Shift (Tracked π)} (h : s.Sound) {x y : Tracked π}
    (hopen : s.worker.closed = false) (hx : s.worker.inHand = some x)
    (hy : y ∈ s.worker.delayed ++ s.worker.immediate) : y.number ≠ x.number := by
  intro hxy
  have hle := h.copies_le x.number
  rw [Worker.kept_of_open hopen, hx, copies_append] at hle
  have hpos := copies_pos_iff.mpr ⟨y, hy, hxy⟩
  simp only [Option.toList_some, copies_cons, if_true] at hle
  omega

theorem sound_run (r : Int) (period : Nat) (events : List (Occasion π)) :
    ((start r period).run Tracked.book events).Sound :=
  run_induction Tracked.book r period (sound_start r period) (fun _ _ => Sound.step) events

end Shift

end Courier.Delivery

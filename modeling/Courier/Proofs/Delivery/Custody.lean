import Courier.Proofs.Delivery.Copies

/-!
Where entries are.

At any moment of any run, every entry that has come in is in exactly one `Place`, once: it waits in
the slot of its recipient, is on its way to the worker, is in one of the queues of the recipient's
open worker or in its hand, is finished, or has been dropped.  It is on its way only while a pass of
the pool is between two steps, and in hand only while a call is under way.

The proof counts.  The seven places of a recipient together are what its bay holds and what is gone
(`Depot.copies_place`), and what the bay holds and what is gone is what has come in, number by
number; so the sum over the places is one for the recipient of an entry and zero for all others, and
a sum of counts that is one says where the entry is (`Place.exists_of_sum_eq_one`).  What came in is
read off the events, which give the numbers in order (`Depot.copies_accepted`).

That units are lost only by their answers is a property of the entry itself and not of its place: a
finished entry has nothing left, and what is left of a valid entry is what its answers leave.

Main statement: all of this in every run, together with what a closed worker does with what it is
given (`Depot.custody`).
-/

namespace Courier.Delivery

variable {π : Type}

/-! ### Closing -/

/-- A tick closes a worker only when it has nothing left. -/
theorem Worker.empty_of_closed_tick {ε : Type} [Deliverable ε] {stop : Bool} {now : Nat}
    {w w' : Worker ε} (h : w.move? stop now .tick = some w') (hclosed : w'.closed = true) :
    w.delayed = [] ∧ w.immediate = [] ∧ w.inHand = none := by
  have hmoves := moves_of_move? h
  generalize w.deeds now .tick = ds at hmoves
  cases hmoves with
  | tick hopen =>
    rw [closed_hold, hopen] at hclosed
    cases hclosed
  | idle hopen =>
    rw [hopen] at hclosed
    cases hclosed
  | close hopen hhand hdue hq himm => exact ⟨hq, himm, hhand⟩

namespace Bay

variable {r : Int}

/-- A closed worker is left as it is, until it is forgotten or has a successor. -/
theorem Step.worker_of_closed {ε : Type} [Deliverable ε] {book : Nat → Int → Entry π → ε}
    {b b' : Bay ε} {ds : Log ε} (h : Step book r b b' ds) {w : Worker ε}
    (hw : b.worker = some w) (hclosed : w.closed = true) :
    b'.worker = some w ∨ b'.worker = none ∨ ∃ period, b'.worker = some (.new r period b.now) := by
  cases h with
  | sweep => exact .inr (.inl rfl)
  | engage period => exact .inr (.inr ⟨period, rfl⟩)
  | @give v w' hv hput =>
    obtain rfl := Option.some.inj (hw.symm.trans hv)
    rw [(Worker.put_eq_ok hput).1] at hclosed
    cases hclosed
  | @move v w' m hv hmove =>
    obtain rfl := Option.some.inj (hw.symm.trans hv)
    rw [Worker.move?_eq_none_of_closed hclosed] at hmove
    cases hmove
  | add | other | withdraw | requeue | clear | signal | elapse | stay => exact .inl hw

end Bay

/-! ### Places -/

/-- Where an entry can be.

* `waiting`: in the slot of its recipient in the pool.
* `handed`: on its way from the slot to the worker.
* `delayed`: in a queue of the recipient's open worker.
* `inHand`: in the worker's hand: the call for its first unit is under way.
* `finished`: nothing is left to deliver.
* `dropped`: a shutdown has thrown it away. -/
inductive Place
  | waiting
  | handed
  | delayed
  | immediate
  | inHand
  | finished
  | dropped
deriving DecidableEq

/-- The sum over all places. -/
def Place.sum (f : Place → Nat) : Nat :=
  f .waiting + f .handed + f .delayed + f .immediate + f .inHand + f .finished + f .dropped

theorem Place.exists_of_sum_eq_one {f : Place → Nat} (h : Place.sum f = 1) :
    ∃ p, ∀ p', f p' = if p' = p then 1 else 0 := by
  unfold Place.sum at h
  have hone : f .waiting = 1 ∨ f .handed = 1 ∨ f .delayed = 1 ∨ f .immediate = 1 ∨
      f .inHand = 1 ∨ f .finished = 1 ∨ f .dropped = 1 := by
    omega
  rcases hone with hp | hp | hp | hp | hp | hp | hp
  · exact ⟨.waiting, fun p' => by cases p' <;> simp <;> omega⟩
  · exact ⟨.handed, fun p' => by cases p' <;> simp <;> omega⟩
  · exact ⟨.delayed, fun p' => by cases p' <;> simp <;> omega⟩
  · exact ⟨.immediate, fun p' => by cases p' <;> simp <;> omega⟩
  · exact ⟨.inHand, fun p' => by cases p' <;> simp <;> omega⟩
  · exact ⟨.finished, fun p' => by cases p' <;> simp <;> omega⟩
  · exact ⟨.dropped, fun p' => by cases p' <;> simp <;> omega⟩

theorem Place.eq_zero_of_sum_eq_zero {f : Place → Nat} (h : Place.sum f = 0) (p : Place) :
    f p = 0 := by
  unfold Place.sum at h
  cases p <;> omega

namespace Depot

/-- What an open worker of a recipient has, in terms of its parts. -/
def ofWorker {ε : Type} (d : Depot ε) (r : Int) (part : Worker ε → List ε) : List ε :=
  match d.pool.worker? r with
  | some w => if w.closed then [] else part w
  | none => []

/-- The entries of a recipient that are at a place. -/
def place {ε : Type} (d : Depot ε) (r : Int) : Place → List ε
  | .waiting => d.pool.waiting.entries r
  | .handed => d.pass.elim [] fun p => p.handed r
  | .delayed => d.ofWorker r Worker.delayed
  | .immediate => d.ofWorker r Worker.immediate
  | .inHand => d.ofWorker r fun w => w.inHand.toList
  | .finished => (Log.of d.log r).items .finished
  | .dropped => (Log.of d.log r).items .dropped

/-- The places of a bay are all there is to it. -/
theorem copies_place (d : Depot (Tracked π)) (r : Int) (n : Nat) :
    copies n (d.bay r).held + copies n (Log.of d.log r).gone =
      Place.sum fun p => copies n (d.place r p) := by
  have hkept : copies n ((d.pool.worker? r).elim [] Worker.kept) =
      copies n (d.place r .inHand) + copies n (d.place r .delayed) +
        copies n (d.place r .immediate) := by
    simp only [place, ofWorker]
    rcases d.pool.worker? r with - | w
    · rfl
    · cases hc : w.closed
      · simp [Worker.kept, hc]
        omega
      · simp [Worker.kept, hc]
  simp only [Place.sum, Bay.held, bay, Log.gone, copies_append, hkept]
  simp only [place]
  omega

theorem mem_place {ε : Type} {d : Depot ε} {r : Int} {p : Place} {x : ε} (h : x ∈ d.place r p) :
    x ∈ (d.bay r).held ∨ ∃ a ∈ Log.of d.log r, a.item = x := by
  -- what an open worker has is held; a closed one has nothing in these places
  have hworker : ∀ part : Worker ε → List ε,
      (∀ w : Worker ε, w.closed = false → ∀ y ∈ part w, y ∈ w.kept) →
      x ∈ d.ofWorker r part → x ∈ (d.bay r).held := by
    intro part hpart hx
    unfold ofWorker at hx
    split at hx
    · rename_i w hw
      split at hx
      · exact absurd hx List.not_mem_nil
      · rename_i hopen
        have hkept := hpart w (by simpa using hopen) x hx
        exact List.mem_append_right _ (by simpa [bay, hw] using hkept)
    · exact absurd hx List.not_mem_nil
  cases p with
  | waiting => exact .inl (by simp [Bay.held, bay, show x ∈ d.pool.waiting.entries r from h])
  | handed =>
    exact .inl (List.mem_append_left _ (List.mem_append_left _ h))
  | delayed =>
    exact .inl (hworker _ (fun w hopen y hy => by simp [Worker.kept_of_open hopen, hy]) h)
  | immediate =>
    exact .inl (hworker _ (fun w hopen y hy => by simp [Worker.kept_of_open hopen, hy]) h)
  | inHand =>
    exact .inl (hworker _ (fun w hopen y hy => by
      rw [Worker.kept_of_open hopen]
      exact List.mem_append_left _ hy) h)
  | finished =>
    obtain ⟨a, ha, -, hitem⟩ := Log.mem_items.mp h
    exact .inr ⟨a, ha, hitem⟩
  | dropped =>
    obtain ⟨a, ha, -, hitem⟩ := Log.mem_items.mp h
    exact .inr ⟨a, ha, hitem⟩

/-- The entries that have come in for a recipient are those added for it, once each. -/
theorem copies_accepted (max period : Nat) (events : List (Event π)) (r : Int) (n : Nat) :
    copies n ((Log.of ((start max period).run Tracked.book events).log r).items .accepted) =
      if (Event.added events)[n]?.map Prod.fst = some r then 1 else 0 := by
  -- by induction on the events, of which only an addition brings something in
  induction events using List.reverseRecOn with
  | nil => rfl
  | append_singleton events e ih =>
    rw [run_concat, Event.added_append]
    rcases log_step Tracked.book ((start max period).run Tracked.book events) e with
      ⟨r', x, rfl, -, hlog⟩ | ⟨hadded, -, ds, hlog, hds⟩
    · -- the new entry gets the number that comes next
      have hadded : Event.added [.add r' x] = [(r', x)] := rfl
      rw [hlog, count_run, hadded]
      have hnew : ∀ (now k : Nat) (log : Log (Tracked π)),
          copies n ((Log.of (⟨.accepted, now, r', Tracked.book k r' x⟩ :: log) r).items .accepted) =
            (if r' = r ∧ k = n then 1 else 0) + copies n ((Log.of log r).items .accepted) := by
        intro now k log
        by_cases hr : r' = r <;> simp [Log.of, hr, Tracked.book]
      rw [hnew, ih]
      -- the new number is the first that has not been given yet
      rcases Nat.lt_trichotomy n (Event.added events).length with hn | rfl | hn
      · rw [List.getElem?_append_left hn, if_neg (by omega), Nat.zero_add]
      · rw [List.getElem?_eq_none (Nat.le_refl _), List.getElem?_concat_length]
        simp
      · rw [List.getElem?_eq_none (Nat.le_of_lt hn), if_neg (by omega), Nat.zero_add,
          List.getElem?_eq_none (by rw [List.length_append]; exact hn)]
    · have hnone : (Log.of ds r).items .accepted = [] := by
        rw [List.eq_nil_iff_forall_not_mem]
        intro y hy
        obtain ⟨a, ha, ht, -⟩ := Log.mem_items.mp hy
        exact (hds a (List.mem_filter.mp ha).1).1 ht
      rw [hlog, Log.of_append, Log.items_append, hnone, List.nil_append, ih, hadded,
        List.append_nil]

/-- All entries that were added are accounted for.

* `distinct`: no recipient has two slots or two workers, so that nothing is outside of the places.
* `one_place`: every entry is in one place of its recipient, once, and nowhere else.
* `added`: nothing else is anywhere.
* `settled`: what is finished is delivered, or given up after a failure or for want of retries.
* `handed`: entries are on their way only during a pass.
* `inHand`: an entry in hand has something left to deliver. -/
structure Accounted (d : Depot (Tracked π)) (added : List (Int × Entry π)) : Prop where
  distinct : d.pool.Distinct
  one_place : ∀ n r e, added[n]? = some (r, e) →
    ∃ p, ∀ r' p', copies n (d.place r' p') = if r' = r ∧ p' = p then 1 else 0
  added : ∀ r p, ∀ x ∈ d.place r p, added[x.number]? = some (r, x.origin)
  settled : ∀ r, ∀ x ∈ d.place r .finished, Settles x.origin.units x.outcomes
  handed : ∀ r, d.place r .handed ≠ [] → ∃ p h, d.pass = some p ∧ p.handoff = some h
  inHand : ∀ r, ∀ x ∈ d.place r .inHand, x.rest.units ≠ []

theorem accounted_run (max period : Nat) (events : List (Event π)) :
    ((start max period).run Tracked.book events).Accounted (Event.added events) := by
  have hreach := bay_reachable Tracked.book max period events
  have hknown := known_run max period events
  refine ⟨distinct_run Tracked.book max period events, fun n r e hn => ?_, fun r p x hx => ?_,
    fun r x hx => ?_, fun r hr => ?_, fun r x hx => ?_⟩
  · -- the places of a recipient together have the entry once if it is the recipient's own
    have hsum : ∀ r', (Place.sum fun p => copies n
        (((start max period).run Tracked.book events).place r' p)) = if r' = r then 1 else 0 := by
      intro r'
      rw [← copies_place, (hreach r').copies_held, copies_accepted, hn]
      simp [eq_comm]
    obtain ⟨p, hp⟩ := Place.exists_of_sum_eq_one ((hsum r).trans (if_pos rfl))
    refine ⟨p, fun r' p' => ?_⟩
    by_cases hr : r' = r
    · rw [hr, hp p']
      simp
    · rw [if_neg fun h => hr h.1]
      exact Place.eq_zero_of_sum_eq_zero ((hsum r').trans (if_neg hr)) p'
  · -- what is in a place is held or has a deed, and was added for the recipient
    rcases mem_place hx with hx | ⟨a, ha, rfl⟩
    · exact ((hknown r).1 x hx).2
    · exact ((hknown r).2 a ha).2
  · -- nothing is left of it, so its calls have come to an end
    obtain ⟨a, ha, ht, rfl⟩ := Log.mem_items.mp hx
    have hdone := (hreach r).isDone_of_finished ha ht
    exact ((hknown r).2 a ha).1.settles (by simpa using hdone)
  · -- without a pass, or between two recipients, nothing is on its way
    simp only [place] at hr
    rcases hp : ((start max period).run Tracked.book events).pass with - | p
    · rw [hp] at hr
      exact absurd rfl hr
    · rcases hh : p.handoff with - | h
      · rw [hp, Option.elim_some, Pass.handed, hh] at hr
        exact absurd rfl hr
      · exact ⟨p, h, rfl, hh⟩
  · -- what is in hand has a unit left
    simp only [place, ofWorker] at hx
    split at hx
    · rename_i w hw
      split at hx
      · exact absurd hx List.not_mem_nil
      · have hdone := (hreach r).isDone_inHand (w := w) hw (Option.mem_toList.mp hx)
        simpa using hdone
    · exact absurd hx List.not_mem_nil

theorem stop_step {d : Depot (Tracked π)} (h : d.stop = false) {e : Event π}
    (he : e ≠ .signal true) : (d.step Tracked.book e).stop = false := by
  rcases clock_step Tracked.book d e with ⟨-, hstop⟩ | ⟨ms, rfl⟩ | ⟨raised, rfl⟩
  · exact hstop.trans h
  · exact h
  · cases raised with
    | false => rfl
    | true => exact absurd rfl he

/-- Without a shutdown, nothing is dropped. -/
theorem dropped_run (max period : Nat) (events : List (Event π))
    (h : ∀ e ∈ events, e ≠ .signal true) (r : Int) :
    ((start max period).run Tracked.book events).place r .dropped = [] := by
  -- as long as the signal is not raised nothing is dropped, by a worker or by the pool
  have key : ((start max period).run Tracked.book events).stop = false ∧
      ∀ a ∈ ((start max period).run Tracked.book events).log, a.turn ≠ .dropped := by
    induction events using List.reverseRecOn with
    | nil => exact ⟨rfl, fun a ha => absurd ha List.not_mem_nil⟩
    | append_singleton events e ih =>
      obtain ⟨hstop, hlog⟩ := ih fun e' he' => h e' (List.mem_append_left _ he')
      rw [run_concat]
      refine ⟨stop_step hstop (h e (by simp)), fun a ha => ?_⟩
      rcases log_step Tracked.book ((start max period).run Tracked.book events) e with
        ⟨r, x, -, -, hnew⟩ | ⟨-, -, ds, hnew, hds⟩
      · rw [hnew] at ha
        rcases List.mem_cons.mp ha with rfl | ha
        · simp
        · exact hlog a ha
      · rw [hnew] at ha
        rcases List.mem_append.mp ha with ha | ha
        · intro ht
          rw [(hds a ha).2 ht] at hstop
          cases hstop
        · exact hlog a ha
  rw [place, List.eq_nil_iff_forall_not_mem]
  intro x hx
  obtain ⟨a, ha, ht, -⟩ := Log.mem_items.mp hx
  exact key.2 a (List.mem_filter.mp ha).1 ht

/-- A closed worker hands back what it is given: it waits again, in front of what came in since. -/
theorem give_of_closed {ε : Type} [Deliverable ε] {p : Pool ε} {r : Int} {w : Worker ε}
    (hw : p.worker? r = some w) (hclosed : w.closed = true) (es : List ε) :
    w.put es = .error es ∧ (p.give r es).workers = p.workers ∧
      (p.give r es).waiting.entries r = es ++ p.waiting.entries r := by
  have hput : w.put es = .error es := by simp [Worker.put, hclosed]
  have hgive : p.give r es = p.requeue r es := by simp [Pool.give, hw, hput]
  refine ⟨hput, by rw [hgive]; rfl, ?_⟩
  rw [hgive, Pool.requeue, Waiting.entries_update, if_pos rfl]

/-- **No entry is lost or duplicated.**  At every moment of every run, whatever comes in, in which
order the passes, the workers and the calls go on and how calls are answered, every entry that was
added is in one place, and what is finished has come to its end.  Nothing is dropped but by a
shutdown.  A tick closes a worker only when it has nothing left; a closed worker hands back what it
is given, which then waits again in front of what came in since, and does nothing ever after. -/
theorem custody (max period : Nat) (events : List (Event π)) :
    let d := (start max period).run Tracked.book events
    d.Accounted (Event.added events) ∧
    ((∀ e ∈ events, e ≠ .signal true) → ∀ r, d.place r .dropped = []) ∧
    (∀ r w w', d.pool.worker? r = some w → w.move? d.stop d.now .tick = some w' →
      w'.closed = true → w.delayed = [] ∧ w.immediate = [] ∧ w.inHand = none) ∧
    (∀ r w, d.pool.worker? r = some w → w.closed = true →
      (∀ es, w.put es = .error es ∧ (d.pool.give r es).workers = d.pool.workers ∧
        (d.pool.give r es).waiting.entries r = es ++ d.pool.waiting.entries r) ∧
      (∀ m, w.move? d.stop d.now m = none) ∧
      ∀ e, (d.step Tracked.book e).pool.worker? r = some w ∨
        (d.step Tracked.book e).pool.worker? r = none ∨
        ∃ p, (d.step Tracked.book e).pool.worker? r = some (.new r p d.now)) := by
  intro d
  refine ⟨accounted_run max period events, dropped_run max period events,
    fun r w w' hw hmove hclosed => ?_, fun r w hw hclosed => ⟨fun es => ?_, ?_, fun e => ?_⟩⟩
  · -- a tick closes a worker that has nothing
    exact Worker.empty_of_closed_tick hmove hclosed
  · exact give_of_closed hw hclosed es
  · exact Worker.move?_eq_none_of_closed hclosed
  · -- what any event can do to the worker of a bay
    obtain ⟨ds, -, hstep⟩ := step_bay Tracked.book (distinct_run Tracked.book max period events) e r
    exact hstep.worker_of_closed hw hclosed

/-- A worker closes just when an entry is on its way to it, which therefore waits again. -/
def turnover : List (Event Nat) :=
  [.add 7 ⟨[.new 10 3], false⟩, .begin [7], .proceed, .proceed, .proceed, .proceed, .move 7 .wake,
    .move 7 (.answer .delivered), .add 7 ⟨[.new 11 3], true⟩, .begin [7], .proceed, .proceed,
    .elapse 1000, .move 7 .tick, .proceed]

theorem custody_turnover :
    ((start 1 1000).run Tracked.book turnover).Accounted
        [(7, ⟨[.new 10 3], false⟩), (7, ⟨[.new 11 3], true⟩)] ∧
      (((start 1 1000).run Tracked.book turnover).place 7 .finished).map Tracked.number = [0] ∧
      (((start 1 1000).run Tracked.book turnover).place 7 .waiting).map Tracked.number = [1] :=
  ⟨(custody 1 1000 turnover).1, rfl, rfl⟩

end Depot

end Courier.Delivery

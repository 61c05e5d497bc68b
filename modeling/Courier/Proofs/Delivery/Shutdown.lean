import Courier.Proofs.Delivery.Capacity

/-!
The shutdown of a pool at work.

An `Operation` is a fleet with the loop that makes the passes of its pool.  The loop ends between
two passes when it sees the shutdown signal, and drops what waits; every worker ends on its own when
it sees the signal.  Entries may be added to the pool and put to any worker, at any moment.  An
operation has settled under the signal (`Operation.Settled`) when nothing changes any more without
the answer to a call, which is decided by the loop, the pass and the workers
(`Operation.settled_iff`).

Unless entries are put to workers from outside, the fleet of an operation makes a run of its own
(`Operation.fleet_run`), so that all that holds of fleets and depots holds of it.

Design.  Everything rests on what one event does to one worker: a worker that has been started is
left alone, is given entries, or makes a move (`Operation.place_step`).  Once the loop has ended no
pass is begun, and none is under way, so no worker is started any more, and a closed worker takes
neither entries nor moves.  `Operation.Aftermath` says so of two moments of a run, the earlier with
the loop at its end; it holds of one event (`Operation.aftermath_step`), it is transitive, and so it
holds of a run (`Operation.aftermath_run`).  That the operation has settled is used only at the very
end, to turn "was open" into "was in the middle of a call" (`Operation.Aftermath.final`).

A worker in the middle of a call is a true exception: it goes on with the units and the entries that
it has (`Operation.not_final_of_call`).

Main statement: when an operation has settled under the signal every worker is closed that is not in
the middle of a call, what waited has been dropped, and calls are made later by those workers only;
before, a worker closes only when a tick finds both its queues empty (`Operation.final_run`).  For a
dispatcher to come to rest under the signal is to settle (`Dispatcher.settle_of_raised`), and once
shut it makes no attempt (`Dispatcher.Shut.advance`).
-/

namespace Courier.Delivery

/-- A fleet, with the loop that makes the passes of its pool.

* `ended`: whether the loop has ended. -/
structure Operation (ε : Type) where
  fleet : Fleet ε
  ended : Bool := false

/-- Something that happens to an operation.

* `put`: entries are put to the worker at a place of the crew.
* `finish`: the loop ends, because of the shutdown signal. -/
inductive Operation.Event (π : Type)
  | fleet (e : Fleet.Event π)
  | put (place : Nat) (entries : List (Entry π))
  | finish

namespace Operation

variable {ε π : Type}

/-- An operation without entries and workers. -/
def start (max period : Nat) : Operation ε := { fleet := .start max period }

/-- Whether something may happen to the fleet: passes begin before the loop has ended, and what
waits is dropped only by its end. -/
def allows (o : Operation ε) : Fleet.Event π → Bool
  | .begin _ => !o.ended
  | .clear => false
  | _ => true

variable [Deliverable ε] (book : Nat → Int → Entry π → ε)

/-- The operation after an event. -/
def step (o : Operation ε) : Event π → Operation ε
  | .fleet e => if o.allows e then { o with fleet := o.fleet.step book e } else o
  | .put i entries =>
    match o.fleet.crew[i]? with
    | none => o
    | some w =>
      let xs := bookAll book o.fleet.count w.recipient entries
      match w.put xs with
      | .error _ => o
      | .ok w' =>
        { o with
          fleet := { o.fleet with
            crew := o.fleet.crew.set i w'
            count := o.fleet.count + entries.length
            log := (xs.map fun x => ⟨.accepted, o.fleet.now, w.recipient, x⟩).reverse ++
              o.fleet.log } }
  | .finish =>
    if o.fleet.stop && o.fleet.pass.isNone && !o.ended then ⟨o.fleet.step book .clear, true⟩ else o

/-- The operation after some events. -/
def run (o : Operation ε) (events : List (Event π)) : Operation ε := events.foldl (step book) o

@[simp] theorem run_nil (o : Operation ε) : o.run book [] = o := rfl

@[simp] theorem run_cons (o : Operation ε) (e : Event π) (events : List (Event π)) :
    o.run book (e :: events) = (o.step book e).run book events := rfl

/-- Unless entries are put to workers from outside, what happens to the fleet is a run of its own:
the pool sees of it a run of a depot. -/
theorem fleet_run (events : List (Event π)) : ∀ o : Operation ε,
    (∀ e ∈ events, ∀ i entries, e ≠ .put i entries) →
      ∃ es, (o.run book events).fleet = o.fleet.run book es := by
  induction events with
  | nil => exact fun o _ => ⟨[], rfl⟩
  | cons e events ih =>
    intro o hputs
    obtain ⟨hfirst, hrest⟩ := List.forall_mem_cons.mp hputs
    obtain ⟨es, hes⟩ := ih (o.step book e) hrest
    -- one event makes at most one step of the fleet, and the end of the loop clears the pool
    obtain ⟨first, hstep⟩ : ∃ first, (o.step book e).fleet = o.fleet.run book first := by
      cases e with
      | put i entries => exact absurd rfl (hfirst i entries)
      | fleet e =>
        simp only [step]
        split
        · exact ⟨[e], rfl⟩
        · exact ⟨[], rfl⟩
      | finish =>
        simp only [step]
        split
        · exact ⟨[.clear], rfl⟩
        · exact ⟨[], rfl⟩
    exact ⟨first ++ es, by rw [run_cons, hes, hstep, Fleet.run_append]⟩

/-! ### What happens to a worker -/

omit [Deliverable ε] in
/-- A worker takes the place of one, and all others stay. -/
theorem place_set {crew : List (Worker ε)} {i j : Nat} {w v : Worker ε} (hw : crew[i]? = some w)
    (hv : crew[j]? = some v) (v' : Worker ε) :
    (j = i ∧ v = w ∧ (crew.set j v')[i]? = some v') ∨ (crew.set j v')[i]? = some w := by
  by_cases hij : j = i
  · subst hij
    have hlt : j < crew.length := (List.getElem?_eq_some_iff.mp hw).1
    exact .inl ⟨rfl, Option.some.inj (hv.symm.trans hw), List.getElem?_set_self hlt⟩
  · exact .inr (by rw [List.getElem?_set_ne hij, hw])

theorem place_give (f : Fleet ε) (r : Int) (es : List ε) {i : Nat} {w : Worker ε}
    (hw : f.crew[i]? = some w) :
    ∃ w', (f.give r es).crew[i]? = some w' ∧ (w' = w ∨ w.put es = .ok w') := by
  unfold Fleet.give
  split
  · exact ⟨w, hw, .inl rfl⟩
  · rename_i v hv
    obtain ⟨j, hj, hvj⟩ := Fleet.worker?_eq_some_iff.mp hv
    split
    · rename_i v' hput
      simp only [Fleet.setWorker, hj]
      rcases place_set hw hvj v' with ⟨-, rfl, hset⟩ | hset
      · exact ⟨v', hset, .inr hput⟩
      · exact ⟨w, hset, .inl rfl⟩
    · exact ⟨w, hw, .inl rfl⟩

omit [Deliverable ε] in
theorem place_hire (f : Fleet ε) (r : Int) {i : Nat} {w : Worker ε} (hw : f.crew[i]? = some w) :
    (f.hire r).crew[i]? = some w := by
  have hlt : i < f.crew.length := (List.getElem?_eq_some_iff.mp hw).1
  rw [Fleet.hire, List.getElem?_append_left hlt, hw]

/-- A pass gives entries to workers, and leaves the others alone. -/
theorem place_proceed (f : Fleet ε) (p : Pass ε) {i : Nat} {w : Worker ε}
    (hw : f.crew[i]? = some w) :
    ∃ w', (f.proceed p).crew[i]? = some w' ∧ (w' = w ∨ ∃ es, w.put es = .ok w') := by
  unfold Fleet.proceed
  split
  · split <;> exact ⟨w, hw, .inl rfl⟩
  · rename_i hand _
    -- what is handed over goes to the worker of its recipient, if there is one
    split
    · obtain ⟨w', hw', hput⟩ := place_give f hand.recipient hand.entries hw
      exact ⟨w', hw', hput.imp_right fun h => ⟨hand.entries, h⟩⟩
    · split
      · -- a worker that is hired comes in behind the crew
        rename_i g room hg
        refine ⟨w, ?_, .inl rfl⟩
        rcases Fleet.engage_eq_some hg with ⟨rfl, -⟩ | ⟨v, -, -, rfl, -⟩ | ⟨-, -, rfl, -⟩
        · exact hw
        · exact place_hire (f.dismiss hand.recipient) hand.recipient hw
        · exact place_hire f hand.recipient hw
      · exact ⟨w, hw, .inl rfl⟩

/-- What an event does to a worker that has been started: nothing, or it is given entries, or it
makes a move. -/
theorem place_step (o : Operation ε) (e : Event π) {i : Nat} {w : Worker ε}
    (hw : o.fleet.crew[i]? = some w) :
    ∃ w', (o.step book e).fleet.crew[i]? = some w' ∧
      (w' = w ∨ (∃ es, w.put es = .ok w') ∨
        ∃ m, e = .fleet (.move i m) ∧ w.move? o.fleet.stop o.fleet.now m = some w') := by
  have hsame : ∀ f : Fleet ε, f.crew = o.fleet.crew → ∃ w', f.crew[i]? = some w' ∧
      (w' = w ∨ (∃ es, w.put es = .ok w') ∨
        ∃ m, e = .fleet (.move i m) ∧ w.move? o.fleet.stop o.fleet.now m = some w') :=
    fun f hf => ⟨w, by rw [hf, hw], .inl rfl⟩
  -- only what is put, a pass that goes on and a move come near a worker
  cases e with
  | put j entries =>
    simp only [step]
    split
    · exact hsame _ rfl
    · rename_i v hv
      split
      · exact hsame _ rfl
      · rename_i v' hput
        rcases place_set hw hv v' with ⟨-, rfl, hset⟩ | hset
        · exact ⟨v', hset, .inr (.inl ⟨_, hput⟩)⟩
        · exact ⟨w, hset, .inl rfl⟩
  | finish =>
    simp only [step, Fleet.step]
    split
    · split <;> exact hsame _ rfl
    · exact hsame _ rfl
  | fleet e =>
    -- an event that is not allowed changes nothing
    simp only [step]
    split
    case isFalse => exact hsame _ rfl
    cases e with
    | add r e => exact hsame _ rfl
    | begin order =>
      simp only [Fleet.step]
      split <;> exact hsame _ rfl
    | proceed =>
      simp only [Fleet.step]
      split
      · rename_i p hp
        obtain ⟨w', hw', hput⟩ := place_proceed o.fleet p hw
        exact ⟨w', hw', hput.imp_right .inl⟩
      · exact hsame _ rfl
    | move j m =>
      simp only [Fleet.step]
      split
      · exact hsame _ rfl
      · rename_i v hv
        split
        · exact hsame _ rfl
        · rename_i v' hmove
          rcases place_set hw hv v' with ⟨rfl, rfl, hset⟩ | hset
          · exact ⟨v', hset, .inr (.inr ⟨m, rfl, hmove⟩)⟩
          · exact ⟨w, hset, .inl rfl⟩
    | clear =>
      simp only [Fleet.step]
      split <;> exact hsame _ rfl
    | signal raised => exact hsame _ rfl
    | elapse ms => exact hsame _ rfl

/-- Workers close by ticks that find nothing, and by the shutdown signal. -/
theorem eq_of_closed {stop : Bool} {now : Nat} {w w' : Worker ε} {m : Move} {ds : Log ε}
    (h : w.Moves stop now m w' ds) (hclosed : w'.closed = true) :
    (m = .tick ∧ w.inHand = none ∧ w.delayed = [] ∧ w.immediate = []) ∨
      (m = .halt ∧ stop = true) := by
  cases h with
  | wake hopen | tick hopen | onward hopen => exact absurd (hopen.symm.trans hclosed) (by simp)
  | idle hopen | back hopen => exact absurd (hopen.symm.trans hclosed) (by simp)
  | close hopen hhand hdue hq himm => exact .inl ⟨rfl, hhand, hq, himm⟩
  | halt hopen hhand hstop => exact .inr ⟨rfl, hstop⟩

/-! ### Settling -/

/-- Whether an event is one that the loop and the workers bring about by themselves, without the
answer to a call. -/
def Event.isInternal : Event π → Bool
  | .fleet .proceed | .finish => true
  | .fleet (.move _ (.answer _)) => false
  | .fleet (.move _ _) => true
  | _ => false

/-- Whether the signal is raised and has been seen by everyone that could: nothing that the loop and
the workers do by themselves changes anything. -/
def Settled (o : Operation ε) : Prop :=
  o.fleet.stop = true ∧ ∀ e : Event π, e.isInternal = true → o.step book e = o

omit [Deliverable ε] in
theorem isFree_eq_false_iff {w : Worker ε} :
    w.isFree = false ↔ w.closed = true ∨ w.inHand.isSome = true := by
  cases hclosed : w.closed <;> cases hhand : w.inHand <;> simp [Worker.isFree, hclosed, hhand]

theorem pass_proceed_ne (f : Fleet ε) (p : Pass ε) : (f.proceed p).pass ≠ some p := by
  obtain ⟨room, left, handoff⟩ := p
  unfold Fleet.proceed
  rcases handoff with - | ⟨r, es, engaged⟩
  · rcases left with - | ⟨r, left⟩ <;> simp
  · cases engaged with
    | true => simp
    | false =>
      simp only [Bool.false_eq_true, if_false]
      split <;> simp

variable {book}

theorem Settled.pass_eq {o : Operation ε} (h : o.Settled book) : o.fleet.pass = none := by
  rcases hp : o.fleet.pass with - | p
  · rfl
  · -- a pass under way could go on
    have hproceed := congrArg (·.fleet.pass) (h.2 (.fleet .proceed) rfl)
    simp only [step, allows, if_true, Fleet.step, hp] at hproceed
    exact absurd hproceed (pass_proceed_ne o.fleet p)

theorem Settled.ended {o : Operation ε} (h : o.Settled book) : o.ended = true := by
  rcases hended : o.ended with - | -
  · have hfinish := congrArg Operation.ended (h.2 .finish rfl)
    simp [step, h.1, h.pass_eq, hended] at hfinish
  · rfl

/-- A free worker could end. -/
theorem Settled.isFree {o : Operation ε} (h : o.Settled book) :
    ∀ w ∈ o.fleet.crew, w.isFree = false := by
  intro w hw
  rcases hfree : w.isFree with - | -
  · rfl
  · obtain ⟨i, hlt, hi⟩ := List.mem_iff_getElem.mp hw
    have hw : o.fleet.crew[i]? = some w := List.getElem?_eq_some_iff.mpr ⟨hlt, hi⟩
    have hmove : w.move? true o.fleet.now .halt = some w.halt := by
      simp [Worker.move?, hfree]
    have hhalt := congrArg (·.fleet.crew[i]?) (h.2 (.fleet (.move i .halt)) rfl)
    simp only [step, allows, if_true, Fleet.step, hw, h.1, hmove,
      List.getElem?_set_self hlt] at hhalt
    have hclosed : w.halt.closed = w.closed := congrArg Worker.closed (Option.some.inj hhalt)
    simp [Worker.isFree, ← hclosed, Worker.halt] at hfree

/-- Workers that are not free wait for answers only. -/
theorem step_move_of_not_isFree {o : Operation ε} (h : ∀ w ∈ o.fleet.crew, w.isFree = false)
    (i : Nat) {m : Move} (hm : ∀ x, m ≠ .answer x) :
    o.step book (.fleet (.move i m)) = o := by
  simp only [step, allows, if_true, Fleet.step]
  split
  · rfl
  · rename_i w hw
    have hnone : w.move? o.fleet.stop o.fleet.now m = none := by
      cases m with
      | answer x => exact absurd rfl (hm x)
      | wake | tick | halt => simp [Worker.move?, h w (List.mem_of_getElem? hw)]
    rw [hnone]

/-- An operation has settled when the loop has ended and no worker is free. -/
theorem settled_iff (o : Operation ε) :
    o.Settled book ↔ o.fleet.stop = true ∧ o.fleet.pass = none ∧ o.ended = true ∧
      ∀ w ∈ o.fleet.crew, w.isFree = false := by
  -- a settled operation has all of this; for the converse no event is left that changes anything
  refine ⟨fun h => ⟨h.1, h.pass_eq, h.ended, h.isFree⟩, ?_⟩
  rintro ⟨hstop, hpass, hended, hcrew⟩
  refine ⟨hstop, fun e he => ?_⟩
  cases e with
  | put => cases he
  | finish => simp [step, hended]
  | fleet e =>
    cases e with
    | proceed => simp [step, allows, Fleet.step, hpass]
    | move i m =>
      -- the answer to a call is not an event of the operation's own
      cases m with
      | answer x => cases he
      | wake | tick | halt => exact step_move_of_not_isFree hcrew i (by simp)
    | _ => cases he

variable (book)

/-! ### After the end of the loop -/

/-- What may have come of an operation whose loop had ended.

* `crew`: workers that were closed are as they were, and no worker has been started.
* `calls`: calls were made by workers that were open. -/
structure Aftermath (o later : Operation ε) : Prop where
  ended : later.ended = true
  pass : later.fleet.pass = none
  crew : ∀ i : Nat, later.fleet.crew[i]? = o.fleet.crew[i]? ∨
    ∃ w w' : Worker ε, o.fleet.crew[i]? = some w ∧ later.fleet.crew[i]? = some w' ∧
      w.closed = false ∧ w'.recipient = w.recipient
  calls : ∃ ds, later.fleet.log = ds ++ o.fleet.log ∧ ∀ a ∈ ds, a.turn = .sent →
    ∃ w ∈ o.fleet.crew, w.closed = false ∧ w.recipient = a.recipient

namespace Aftermath

variable {o p q : Operation ε}

omit [Deliverable ε] in
/-- Without calls and changes of workers. -/
theorem quiet {f : Fleet ε} (ds : Log ε) (hended : o.ended = true) (hpass : f.pass = none)
    (hcrew : f.crew = o.fleet.crew) (hlog : f.log = ds ++ o.fleet.log)
    (hds : ∀ a ∈ ds, a.turn ≠ .sent) : Aftermath o { o with fleet := f } :=
  ⟨hended, hpass, fun i => .inl (by rw [hcrew]), ds, hlog, fun a ha ht => absurd ht (hds a ha)⟩

omit [Deliverable ε] in
theorem refl (hended : o.ended = true) (hpass : o.fleet.pass = none) : Aftermath o o :=
  quiet (f := o.fleet) [] hended hpass rfl rfl nofun

omit [Deliverable ε] in
/-- One open worker goes on. -/
theorem replace {f : Fleet ε} (hended : o.ended = true) (hpass : f.pass = none) {i : Nat}
    {w w' : Worker ε} (hw : o.fleet.crew[i]? = some w) (hopen : w.closed = false)
    (hrecipient : w'.recipient = w.recipient) (hcrew : f.crew = o.fleet.crew.set i w') {ds : Log ε}
    (hlog : f.log = ds ++ o.fleet.log) (hds : ∀ a ∈ ds, a.recipient = w.recipient) :
    Aftermath o { o with fleet := f } := by
  refine ⟨hended, hpass, fun j => ?_, ds, hlog, fun a ha _ => ?_⟩
  · by_cases hij : i = j
    · subst hij
      have hlt : i < o.fleet.crew.length := (List.getElem?_eq_some_iff.mp hw).1
      exact .inr ⟨w, w', hw, by rw [hcrew, List.getElem?_set_self hlt], hopen, hrecipient⟩
    · exact .inl (by rw [hcrew, List.getElem?_set_ne hij])
  · exact ⟨w, List.mem_of_getElem? hw, hopen, (hds a ha).symm⟩

omit [Deliverable ε] in
theorem trans (h : Aftermath o p) (h' : Aftermath p q) : Aftermath o q := by
  -- the crew: what happened to a worker first and what happened to it later are put together
  refine ⟨h'.ended, h'.pass, fun i => ?_, ?_⟩
  · rcases h'.crew i with hsame | ⟨v, w', hv, hw', hopen, hrecipient⟩
    · rw [hsame]
      exact h.crew i
    · rcases h.crew i with hsame | ⟨w, v', hw, hv', hwopen, hwrecipient⟩
      · exact .inr ⟨v, w', hsame ▸ hv, hw', hopen, hrecipient⟩
      · obtain rfl := Option.some.inj (hv.symm.trans hv')
        exact .inr ⟨w, w', hw, hw', hwopen, hrecipient.trans hwrecipient⟩
  · -- the calls of both stretches
    obtain ⟨ds, hlog, hds⟩ := h.calls
    obtain ⟨ds', hlog', hds'⟩ := h'.calls
    refine ⟨ds' ++ ds, by rw [hlog', hlog, List.append_assoc], fun a ha ht => ?_⟩
    rcases List.mem_append.mp ha with ha | ha
    · -- whoever was open later was open before
      obtain ⟨v, hv, hopen, hrecipient⟩ := hds' a ha ht
      obtain ⟨i, hi⟩ := List.mem_iff_getElem?.mp hv
      rcases h.crew i with hsame | ⟨w, v', hw, hv', hwopen, hwrecipient⟩
      · exact ⟨v, List.mem_of_getElem? (hsame ▸ hi), hopen, hrecipient⟩
      · obtain rfl := Option.some.inj (hi.symm.trans hv')
        exact ⟨w, List.mem_of_getElem? hw, hwopen, hwrecipient.symm.trans hrecipient⟩
    · exact hds a ha ht

end Aftermath

/-- One event after the end of the loop. -/
theorem aftermath_step {o : Operation ε} (hended : o.ended = true) (hpass : o.fleet.pass = none)
    (e : Event π) : Aftermath o (o.step book e) := by
  have hrefl := Aftermath.refl hended hpass
  -- closed workers take neither entries nor moves, and no event of a pass is allowed any more
  cases e with
  | put i entries =>
    simp only [step]
    split
    · exact hrefl
    · rename_i w hw
      split
      · exact hrefl
      · rename_i w' hput
        have hrecipient : w'.recipient = w.recipient := by rw [(Worker.put_eq_ok hput).2]
        refine Aftermath.replace hended hpass hw (Worker.put_eq_ok hput).1 hrecipient rfl rfl
          fun a ha => ?_
        obtain ⟨x, -, rfl⟩ := List.mem_map.mp (List.mem_reverse.mp ha)
        rfl
  | finish =>
    simp only [step, hended, Bool.not_true, Bool.and_false]
    exact hrefl
  | fleet e =>
    cases e with
    | add r e =>
      refine Aftermath.quiet [⟨.accepted, o.fleet.now, r, _⟩] hended hpass rfl rfl ?_
      exact List.forall_mem_singleton.mpr (by simp)
    | begin order =>
      -- there is no loop any more that would make a pass
      simp only [step, allows, hended]
      exact hrefl
    | proceed =>
      -- and no pass is under way that could still start a worker
      simp only [step, allows, if_true, Fleet.step, hpass]
      exact hrefl
    | move i m =>
      simp only [step, allows, if_true, Fleet.step]
      split
      · exact hrefl
      · rename_i w hw
        split
        · exact hrefl
        · rename_i w' hmove
          have hmoves := Worker.moves_of_move? hmove
          exact Aftermath.replace hended hpass hw (Worker.open_of_move? hmove) hmoves.recipient_eq
            rfl rfl hmoves.recipient_deed
    | clear => exact hrefl
    | signal raised => exact Aftermath.quiet [] hended hpass rfl rfl (by simp)
    | elapse ms => exact Aftermath.quiet [] hended hpass rfl rfl (by simp)

/-- Whatever happens after the end of the loop. -/
theorem aftermath_run (events : List (Event π)) : ∀ {o : Operation ε}, o.ended = true →
    o.fleet.pass = none → Aftermath o (o.run book events) := by
  induction events with
  | nil => exact Aftermath.refl
  | cons e events ih =>
    intro o hended hpass
    have hstep := aftermath_step book hended hpass e
    exact hstep.trans (ih hstep.ended hstep.pass)

/-! ### The end of the loop -/

/-- The loop ends only by its own event, which drops what waits. -/
theorem ended_step {o : Operation ε} {e : Event π} (h : (o.step book e).ended = true)
    (hrunning : o.ended = false) : e = .finish ∧ (o.step book e).fleet.waiting = [] := by
  -- no event but the end of the loop sets the mark
  cases e with
  | finish =>
    refine ⟨rfl, ?_⟩
    simp only [step] at h ⊢
    split at h
    · rename_i hready
      have hstop : o.fleet.stop = true := by simp at hready; exact hready.1.1
      rw [if_pos hready]
      simp only [Fleet.step, hstop, if_true]
    · exact absurd (h.symm.trans hrunning) (by simp)
  | put i entries =>
    simp only [step] at h
    split at h
    · exact absurd (h.symm.trans hrunning) (by simp)
    · split at h <;> exact absurd (h.symm.trans hrunning) (by simp)
  | fleet e =>
    simp only [step] at h
    split at h <;> exact absurd (h.symm.trans hrunning) (by simp)

/-- Whether a run brings the end of the loop, which leaves nothing waiting. -/
def Clears (o : Operation ε) (events : List (Event π)) : Prop :=
  ∃ earlier later, events = earlier ++ .finish :: later ∧ (o.run book earlier).ended = false ∧
    ((o.run book earlier).step book .finish).ended = true ∧
    ((o.run book earlier).step book .finish).fleet.waiting = []

theorem clears_of_ended (events : List (Event π)) : ∀ {o : Operation ε}, o.ended = false →
    (o.run book events).ended = true → o.Clears book events := by
  induction events with
  | nil =>
    intro o hrunning h
    exact absurd (h.symm.trans hrunning) (by simp)
  | cons e events ih =>
    intro o hrunning h
    rcases hstep : (o.step book e).ended with - | -
    · obtain ⟨earlier, later, rfl, hrest⟩ := ih hstep h
      exact ⟨e :: earlier, later, rfl, hrest⟩
    · obtain ⟨rfl, hwaiting⟩ := ended_step book hstep hrunning
      exact ⟨[], events, rfl, hrunning, hstep, hwaiting⟩

/-! ### The shutdown is final -/

/-- Whether an event closes the worker at a place. -/
def Closes (o : Operation ε) (e : Event π) (i : Nat) (w : Worker ε) : Prop :=
  o.fleet.crew[i]? = some w ∧ w.closed = false ∧
    ((o.step book e).fleet.crew[i]?.map Worker.closed) = some true

/-- What a shutdown leaves behind, and what may have come of it later.

* `closed`: a worker is closed unless it is in the middle of a call.
* `stays`: workers that are not in the middle of a call stay as they are: closed.
* `length_eq`: no worker is started.
* `calls`: calls are made only by workers that were in the middle of one. -/
structure Final (o later : Operation ε) : Prop where
  closed : ∀ w ∈ o.fleet.crew, w.closed = true ∨ w.inHand.isSome = true
  stays : ∀ (i : Nat) (w : Worker ε), o.fleet.crew[i]? = some w → w.inHand = none →
    w.closed = true ∧ later.fleet.crew[i]? = some w
  length_eq : later.fleet.crew.length = o.fleet.crew.length
  calls : ∃ ds, later.fleet.log = ds ++ o.fleet.log ∧ ∀ a ∈ ds, a.turn = .sent →
    ∃ w ∈ o.fleet.crew, w.inHand.isSome = true ∧ w.recipient = a.recipient

omit [Deliverable ε] in
/-- When no call was under way, all workers are closed for good and no call is made any more. -/
theorem Final.silent {o later : Operation ε} (h : Final o later)
    (hidle : ∀ w ∈ o.fleet.crew, w.inHand = none) :
    later.fleet.crew = o.fleet.crew ∧ (∀ w ∈ later.fleet.crew, w.closed = true) ∧
      ∃ ds, later.fleet.log = ds ++ o.fleet.log ∧ ∀ a ∈ ds, a.turn ≠ .sent := by
  -- every place holds what it held, since no worker was in the middle of a call
  have hcrew : later.fleet.crew = o.fleet.crew := by
    refine List.ext_getElem? fun i => ?_
    rcases hi : o.fleet.crew[i]? with - | w
    · rw [List.getElem?_eq_none_iff] at hi ⊢
      exact h.length_eq ▸ hi
    · exact (h.stays i w hi (hidle w (List.mem_of_getElem? hi))).2
  refine ⟨hcrew, fun w hw => ?_, ?_⟩
  · rw [hcrew] at hw
    exact (h.closed w hw).resolve_right (by simp [hidle w hw])
  · obtain ⟨ds, hlog, hds⟩ := h.calls
    refine ⟨ds, hlog, fun a ha ht => ?_⟩
    obtain ⟨w, hw, hcall, -⟩ := hds a ha ht
    simp [hidle w hw] at hcall

omit [Deliverable ε] in
/-- What comes after the end of the loop, when no worker is free. -/
theorem Aftermath.final {o later : Operation ε} (h : Aftermath o later)
    (hfree : ∀ w ∈ o.fleet.crew, w.isFree = false) : Final o later := by
  have hclosed : ∀ w ∈ o.fleet.crew, w.closed = true ∨ w.inHand.isSome = true :=
    -- whoever is not free is closed or in the middle of a call
    fun w hw => isFree_eq_false_iff.mp (hfree w hw)
  refine ⟨hclosed, fun i w hw hidle => ?_, ?_, ?_⟩
  · -- a closed worker would have to be open to change
    have hwclosed : w.closed = true :=
      (hclosed w (List.mem_of_getElem? hw)).resolve_right (by simp [hidle])
    refine ⟨hwclosed, ?_⟩
    rcases h.crew i with hsame | ⟨v, w', hv, -, hopen, -⟩
    · rw [hsame, hw]
    · obtain rfl := Option.some.inj (hw.symm.trans hv)
      exact absurd (hwclosed.symm.trans hopen) (by simp)
  · -- no worker comes in: a place is empty later just if it was empty
    have hiff : ∀ i, later.fleet.crew.length ≤ i ↔ o.fleet.crew.length ≤ i := by
      intro i
      rw [← List.getElem?_eq_none_iff, ← List.getElem?_eq_none_iff]
      rcases h.crew i with hsame | ⟨w, w', hw, hw', -⟩
      · rw [hsame]
      · simp [hw, hw']
    exact Nat.le_antisymm ((hiff _).mpr (Nat.le_refl _)) ((hiff _).mp (Nat.le_refl _))
  · obtain ⟨ds, hlog, hds⟩ := h.calls
    refine ⟨ds, hlog, fun a ha ht => ?_⟩
    obtain ⟨w, hw, hopen, hrecipient⟩ := hds a ha ht
    exact ⟨w, hw, (hclosed w hw).resolve_left (by simp [hopen]), hrecipient⟩

/-- Before the shutdown workers close only by ticks that find nothing. -/
theorem tick_of_closes {o : Operation ε} (hstop : o.fleet.stop = false) {e : Event π} {i : Nat}
    {w : Worker ε} (h : o.Closes book e i w) :
    e = .fleet (.move i .tick) ∧ w.inHand = none ∧ w.delayed = [] ∧ w.immediate = [] := by
  obtain ⟨hw, hopen, hclosed⟩ := h
  obtain ⟨w', hw', hcase⟩ := o.place_step book e hw
  replace hclosed : w'.closed = true := by simpa [hw'] using hclosed
  rcases hcase with rfl | ⟨es, hput⟩ | ⟨m, rfl, hmove⟩
  · exact absurd (hclosed.symm.trans hopen) (by simp)
  · obtain ⟨-, rfl⟩ := Worker.put_eq_ok hput
    exact absurd (hclosed.symm.trans hopen) (by simp)
  · rcases eq_of_closed (Worker.moves_of_move? hmove) hclosed with ⟨rfl, hempty⟩ | ⟨-, hraised⟩
    · exact ⟨rfl, hempty⟩
    · exact absurd (hraised.symm.trans hstop) (by simp)

/-- **The shutdown is final.**  When an operation has settled under the shutdown signal, the end of
the loop has dropped what waited, and every worker is closed that is not in the middle of a call;
whatever happens then, closed workers stay as they are, none is started, and calls are made only by
those that were in the middle of one.  While the signal is not raised, a worker closes only when a
tick finds both its queues empty. -/
theorem final_run (max period : Nat) (before after : List (Event π)) :
    let o : Operation ε := (start max period).run book before
    (∀ (e : Event π) (i : Nat) (w : Worker ε), o.fleet.stop = false → o.Closes book e i w →
        e = .fleet (.move i .tick) ∧ w.inHand = none ∧ w.delayed = [] ∧ w.immediate = []) ∧
      (o.Settled book →
        (start max period : Operation ε).Clears book before ∧ Final o (o.run book after)) := by
  intro o
  refine ⟨fun e i w hstop h => tick_of_closes book hstop h, fun h => ?_⟩
  obtain ⟨-, hpass, hended, hfree⟩ := (settled_iff o).mp h
  exact ⟨clears_of_ended book before rfl hended,
    (aftermath_run book after hended hpass).final hfree⟩

/-- An entry for recipient 7 that goes at once, and one for recipient 8 with a unit that has to wait
when it is sent. -/
def day : List (Event Nat) :=
  [.fleet (.add 7 ⟨[.new 10 3], false⟩), .fleet (.add 8 ⟨[.new 20 3], true⟩),
    .fleet (.begin [7, 8])] ++ List.replicate 7 (.fleet .proceed) ++
  [.fleet (.move 0 .wake), .fleet (.move 0 (.answer .delivered)), .fleet (.elapse 1000),
    .fleet (.move 1 .tick), .fleet (.move 1 (.answer (.rateLimited 5000)))]

/-- The worker of recipient 7 closes by itself.  The shutdown finds an entry that waits for its next
attempt, and one that no worker has been given. -/
def evening : List (Event Nat) :=
  [.fleet (.move 0 .tick), .fleet (.add 9 ⟨[.new 30 3], false⟩), .fleet (.signal true), .finish,
    .fleet (.move 1 .halt)]

/-- More entries come in, the time for the next attempt comes, and the signal is taken back. -/
def night : List (Event Nat) :=
  [.fleet (.add 9 ⟨[.new 31 3], true⟩), .put 1 [⟨[.new 21 3], false⟩], .fleet (.begin [9]),
    .fleet .proceed, .fleet (.elapse 60000), .fleet (.move 1 .tick), .fleet (.move 1 .wake),
    .fleet (.signal false), .fleet (.begin [9]), .fleet (.move 1 .tick)]

theorem final_run_night :
    let o := (start 2 1000 : Operation (Entry Nat)).run bare day
    let p := (start 2 1000 : Operation (Entry Nat)).run bare (day ++ evening)
    (∃ w, o.fleet.stop = false ∧ o.Closes bare (.fleet (.move 0 .tick) : Event Nat) 0 w ∧
        w.delayed = [] ∧ w.immediate = []) ∧
      p.Settled bare ∧ (∀ w ∈ (p.run bare night).fleet.crew, w.closed = true) ∧
      ∃ ds, (p.run bare night).fleet.log = ds ++ p.fleet.log ∧ ∀ a ∈ ds, a.turn ≠ .sent := by
  intro o p
  obtain ⟨w, hw⟩ : ∃ w, o.fleet.crew[0]? = some w := ⟨_, rfl⟩
  have hstop : o.fleet.stop = false := rfl
  -- the first worker finds both its queues empty, and the tick closes it
  have hopen : w.closed = false := by
    have hcrew : o.fleet.crew[0]?.map Worker.closed = some false := by decide
    simpa [hw] using hcrew
  have hcloses : o.Closes bare (.fleet (.move 0 .tick) : Event Nat) 0 w :=
    ⟨hw, hopen, by decide⟩
  -- after the evening the loop has ended, and no worker is free
  have hsettled : p.Settled bare := (settled_iff p).mpr (by decide)
  obtain ⟨-, -, hdelayed, himmediate⟩ :=
    (final_run bare 2 1000 day night).1 (.fleet (.move 0 .tick)) 0 w hstop hcloses
  obtain ⟨-, hfinal⟩ := (final_run bare 2 1000 (day ++ evening) night).2 hsettled
  obtain ⟨-, hclosed, hsilent⟩ := hfinal.silent (by decide)
  exact ⟨⟨w, hstop, hcloses, hdelayed, himmediate⟩, hsettled, hclosed, hsilent⟩

/-- A worker that is in the middle of a call when the shutdown comes is not closed when everything
has settled, and it makes further calls: for the next unit of its entry, and for the entry that came
in behind it. -/
theorem not_final_of_call :
    let o := (start 1 1000 : Operation (Entry Nat)).run bare
      ([.fleet (.add 7 ⟨[.new 10 3, .new 11 3], false⟩), .fleet (.add 7 ⟨[.new 20 3], false⟩),
        .fleet (.begin [7])] ++ List.replicate 4 (.fleet .proceed) ++
      [.fleet (.move 0 .wake), .fleet (.signal true), .finish])
    let later := o.run bare [.fleet (.elapse 1000), .fleet (.move 0 (.answer .delivered)),
      .fleet (.move 0 (.answer .delivered)), .fleet (.move 0 .wake)]
    o.Settled bare ∧ o.fleet.crew.map Worker.closed = [false] ∧
      (o.fleet.log.filter (·.turn = .sent)).map Deed.item = [⟨[.new 10 3, .new 11 3], false⟩] ∧
      (later.fleet.log.filter (·.turn = .sent)).map Deed.item =
        [⟨[.new 20 3], false⟩, ⟨[.new 11 3], false⟩, ⟨[.new 10 3, .new 11 3], false⟩] := by
  intro o later
  exact ⟨(settled_iff o).mpr (by decide), by decide, by decide, by decide⟩

end Operation

/-! ### The dispatcher -/

namespace Line

variable {σ π : Type} [Sender σ π]

/-- At rest there is nothing left to do. -/
theorem step?_settle (stop : Bool) (now : Nat) (l : Line σ π) :
    (l.settle stop now).step? stop now = none := by
  fun_induction Line.settle stop now l with
  | case1 l hnone => exact hnone
  | case2 l l' hstep ih => exact ih

/-- Under the signal a worker that is free has something to do: to end. -/
theorem isFree_of_step? {now : Nat} {l : Line σ π} (h : l.step? true now = none) :
    l.worker.isFree = false := by
  rcases hfree : l.worker.isFree with - | -
  · rfl
  · obtain ⟨hopen, hhand⟩ := Worker.isFree_iff.mp hfree
    cases himm : l.worker.immediate.isEmpty <;> simp [step?, hhand, hopen, himm] at h

/-- A closed worker is at rest. -/
theorem settle_of_closed {stop : Bool} {now : Nat} {l : Line σ π} (hclosed : l.worker.closed = true)
    (hhand : l.worker.inHand = none) : l.settle stop now = l := by
  have hnone : l.step? stop now = none := by simp [step?, hhand, hclosed]
  rw [settle]
  split
  · rfl
  · rename_i l' hstep
    rw [hnone] at hstep
    cases hstep

end Line

namespace Dispatcher

variable {σ : Type} {d : Dispatcher σ} (now : Nat)

/-- Workers that come to rest change nothing but what their calls do. -/
theorem runWorkers_frame [Sender σ Parcel] (ws : List (Worker (Entry Parcel))) :
    ∀ d : Dispatcher σ, ∃ sender calls reports,
      (d.runWorkers now ws).1 = { d with sender, calls, reports } := by
  induction ws with
  | nil => exact fun d => ⟨d.sender, d.calls, d.reports, rfl⟩
  | cons w ws ih =>
    intro d
    obtain ⟨sender, calls, reports, hrest⟩ := ih _
    exact ⟨sender, calls, reports, hrest⟩

/-- Workers that come to rest have nothing left to do. -/
theorem exists_line_of_mem_runWorkers [Sender σ Parcel] (ws : List (Worker (Entry Parcel))) :
    ∀ d : Dispatcher σ, ∀ w ∈ (d.runWorkers now ws).2,
      ∃ l : Line σ Parcel, l.worker = w ∧ l.step? d.signal.raised now = none := by
  induction ws with
  | nil => exact fun d => nofun
  | cons w ws ih =>
    exact fun d => List.forall_mem_cons.mpr ⟨⟨_, rfl, Line.step?_settle ..⟩, ih _⟩

theorem settleWorkers_frame [Sender σ Parcel] (d : Dispatcher σ) :
    (d.settleWorkers now).signal = d.signal ∧ (d.settleWorkers now).loops = d.loops ∧
      (d.settleWorkers now).pool.waiting = d.pool.waiting := by
  obtain ⟨sender, calls, reports, hframe⟩ := runWorkers_frame now d.pool.workers d
  simp only [settleWorkers, hframe, and_self]

/-- A loop that sees the signal ends, and what waits is dropped by that of the pool. -/
theorem runLoop_of_raised (hraised : d.signal.raised = true) (loop : Loop × Bool) :
    (d.runLoop now loop).1.signal = d.signal ∧ (d.runLoop now loop).2.2 = true ∧
      ((d.pool.waiting = [] ∨ ∃ t, loop = (.pool t, false)) →
        (d.runLoop now loop).1.pool.waiting = []) := by
  obtain ⟨kind, ended⟩ := loop
  cases ended with
  | true => exact ⟨rfl, rfl, fun h => h.resolve_right nofun⟩
  | false =>
    cases kind with
    | pool t =>
      have hrun : d.runLoop now (.pool t, false) =
          ({ d with pool := d.pool.clear }, (.pool t, true)) := if_pos hraised
      rw [hrun]
      exact ⟨rfl, rfl, fun _ => rfl⟩
    | subscriber reader =>
      have hrun : d.runLoop now (.subscriber reader, false) =
          ({ d with bus := d.bus.unsubscribe reader }, (.subscriber reader, true)) :=
        if_pos hraised
      rw [hrun]
      exact ⟨rfl, rfl, fun h => h.resolve_right nofun⟩

theorem runLoops_of_raised (loops : List (Loop × Bool)) : ∀ {d : Dispatcher σ},
    d.signal.raised = true →
      (d.runLoops now loops).1.signal = d.signal ∧
      (∀ l ∈ (d.runLoops now loops).2, l.2 = true) ∧
      ((d.pool.waiting = [] ∨ ∃ t, (Loop.pool t, false) ∈ loops) →
        (d.runLoops now loops).1.pool.waiting = []) := by
  -- by induction on the loops, with the signal as it was at the first one
  induction loops with
  | nil => exact fun _ => ⟨rfl, nofun, fun h => h.resolve_right nofun⟩
  | cons loop loops ih =>
    intro d hraised
    obtain ⟨hsignal, hended, hwaiting⟩ := runLoop_of_raised now hraised loop
    obtain ⟨hsignal', hended', hwaiting'⟩ :=
      ih (d := (d.runLoop now loop).1) (hsignal ▸ hraised)
    refine ⟨hsignal'.trans hsignal, List.forall_mem_cons.mpr ⟨hended, hended'⟩, fun h => ?_⟩
    rcases h with h | ⟨t, ht⟩
    · exact hwaiting' (.inl (hwaiting (.inl h)))
    · rcases List.mem_cons.mp ht with rfl | ht
      · exact hwaiting' (.inl (hwaiting (.inr ⟨t, rfl⟩)))
      · exact hwaiting' (.inr ⟨t, ht⟩)

/-- **A dispatcher that comes to rest under the signal has settled.**  All its loops have ended, a
loop of the pool has dropped what waits, and every worker is closed that is not in the middle of a
call. -/
theorem settle_of_raised [Sender σ Parcel] (hraised : d.signal.raised = true) :
    (∀ l ∈ (d.settle now).loops, l.2 = true) ∧
      ((∃ t, (Loop.pool t, false) ∈ d.loops) → (d.settle now).pool.waiting = []) ∧
      ∀ w ∈ (d.settle now).pool.workers, w.closed = true ∨ w.inHand.isSome = true := by
  -- the workers settle, then the loops end, then the workers settle again; none takes back the
  -- signal
  obtain ⟨hsignal, hloops, -⟩ := settleWorkers_frame now d
  obtain ⟨hsignal', hended, hwaiting⟩ := runLoops_of_raised now
    (d.settleWorkers now).loops (d := d.settleWorkers now) (hsignal ▸ hraised)
  obtain ⟨hsignal'', hloops'', hwaiting''⟩ :=
    settleWorkers_frame now ((d.settleWorkers now).settleLoops now)
  refine ⟨fun l hl => ?_, fun ⟨t, ht⟩ => ?_, fun w hw => ?_⟩
  · have hl' : l ∈ ((d.settleWorkers now).settleLoops now).loops := hloops'' ▸ hl
    exact hended l hl'
  · exact hwaiting''.trans (hwaiting (.inr ⟨t, hloops ▸ ht⟩))
  · have hstill : ((d.settleWorkers now).settleLoops now).signal.raised = true := by
      have hsame : ((d.settleWorkers now).settleLoops now).signal = d.signal :=
        hsignal'.trans hsignal
      rw [hsame, hraised]
    obtain ⟨l, rfl, hrest⟩ := exists_line_of_mem_runWorkers now _ _ w hw
    rw [hstill] at hrest
    exact Operation.isFree_eq_false_iff.mp (Line.isFree_of_step? hrest)

/-- Whether all loops have ended and all workers are closed. -/
structure Shut (d : Dispatcher σ) : Prop where
  loops : ∀ l ∈ d.loops, l.2 = true
  workers : ∀ w ∈ d.pool.workers, w.closed = true ∧ w.inHand = none

theorem runLoops_of_ended (loops : List (Loop × Bool)) (h : ∀ l ∈ loops, l.2 = true) :
    d.runLoops now loops = (d, loops) := by
  induction loops with
  | nil => rfl
  | cons loop loops ih =>
    obtain ⟨hloop, hrest⟩ := List.forall_mem_cons.mp h
    obtain ⟨kind, ended⟩ := loop
    obtain rfl : ended = true := hloop
    simp only [runLoops, runLoop, ih hrest]

variable [Sender σ Parcel]

theorem runWorkers_of_closed (ws : List (Worker (Entry Parcel)))
    (h : ∀ w ∈ ws, w.closed = true ∧ w.inHand = none) :
    ∀ d : Dispatcher σ, (d.runWorkers now ws).2 = ws ∧
      ∃ calls, (d.runWorkers now ws).1 = { d with calls } := by
  induction ws with
  | nil => exact fun d => ⟨rfl, d.calls, rfl⟩
  | cons w ws ih =>
    intro d
    obtain ⟨hw, hrest⟩ := List.forall_mem_cons.mp h
    have hline : (d.line w).settle d.signal.raised now = d.line w :=
      Line.settle_of_closed hw.1 hw.2
    simp only [runWorkers, hline]
    obtain ⟨hws, calls, hframe⟩ := ih hrest _
    exact ⟨congrArg (w :: ·) hws, calls, hframe⟩

theorem Shut.settleWorkers (h : d.Shut) : ∃ calls, d.settleWorkers now = { d with calls } := by
  obtain ⟨hws, calls, hframe⟩ := runWorkers_of_closed now d.pool.workers h.workers d
  refine ⟨calls, ?_⟩
  simp only [Dispatcher.settleWorkers, hws, hframe]

/-- A dispatcher that is shut does nothing. -/
theorem Shut.settle (h : d.Shut) : ∃ calls, d.settle now = { d with calls } := by
  obtain ⟨calls, hfirst⟩ := h.settleWorkers now
  have hloops : Dispatcher.settleLoops now { d with calls } = { d with calls } := by
    simp only [settleLoops, runLoops_of_ended now d.loops h.loops]
  have hshut : Shut { d with calls } := ⟨h.loops, h.workers⟩
  obtain ⟨calls', hsecond⟩ := hshut.settleWorkers now
  exact ⟨calls', by rw [Dispatcher.settle, hfirst, hloops, hsecond]⟩

/-- However long it is left alone. -/
theorem Shut.advance (h : d.Shut) (ms : Nat) (m : Time.Moment) :
    ∃ calls, Time.Timed.advance ms m d = { d with calls } := by
  unfold Time.Timed.advance
  generalize m.elapsed + ms = stop
  fun_induction Time.Timed.advanceUntil (fun _ => false) stop m d with
  | case1 m d s hdone => cases hdone
  | case2 m d s hdone hnone => exact h.settle m.elapsed
  | case3 m d s hdone t hnext hlt ih =>
    obtain ⟨calls, hsettle⟩ := h.settle m.elapsed
    have hs : s = { d with calls } := hsettle
    obtain ⟨calls', hrest⟩ := ih (hs ▸ ⟨h.loops, h.workers⟩)
    exact ⟨calls', by rw [hrest, hs]⟩
  | case4 m d s hdone t hnext hlt => exact h.settle m.elapsed

end Dispatcher

end Courier.Delivery

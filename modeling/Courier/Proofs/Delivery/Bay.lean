import Courier.Proofs.Delivery.Depot
import Mathlib.Data.List.Induction

/-!
A depot as one recipient sees it.

Recipients do not get in each other's way: all that a recipient sees of a depot is its own slot, its
entries on their way to its worker, and its worker.  This is its `Bay`, and `Bay.Step` lists what
can happen there, with the deeds that come of it.

One lemma for each part of a pass and for each other event says which step it is for its recipient
(`withdraw_bay`, `give_bay`, `engage_bay`, `add_bay`, `move_bay`), and that it is none for the
others.  It has to be known that a recipient has one slot and one worker at most (`distinct_run`):
only then is what the table finds first all that there is.  Deeds of others are left out of the log
by `Log.of`, so the log of a recipient grows by the deeds of its own steps.

Main statement: whatever happens to a depot is, for every recipient, one of these steps
(`step_bay`), so that a property of one recipient's deliveries is proved by going through them
(`bay_reachable`).
-/

namespace Courier.Delivery

variable {ε π : Type}

/-- What a recipient sees of a depot.

* `handed`: the entries on their way to the worker. -/
structure Bay (ε : Type) where
  waiting : List ε := []
  handed : List ε := []
  worker : Option (Worker ε) := none
  stop : Bool := false
  now : Nat := 0
  count : Nat := 0

/-- The part of a log that is about a recipient. -/
def Log.of (log : Log ε) (recipient : Int) : Log ε := log.filter fun a => a.recipient = recipient

namespace Log

@[simp] theorem of_nil (r : Int) : Log.of ([] : Log ε) r = [] := rfl

theorem of_append (log log' : Log ε) (r : Int) :
    Log.of (log ++ log') r = Log.of log r ++ Log.of log' r := List.filter_append ..

theorem of_eq_self {log : Log ε} {r : Int} (h : ∀ a ∈ log, a.recipient = r) :
    Log.of log r = log :=
  List.filter_eq_self.mpr fun a ha => by simpa using h a ha

theorem of_eq_nil {log : Log ε} {r k : Int} (h : ∀ a ∈ log, a.recipient = k) (hr : r ≠ k) :
    Log.of log r = [] :=
  List.filter_eq_nil_iff.mpr fun a ha => by simpa [h a ha] using hr.symm

end Log

namespace Bay

variable [Deliverable ε] (book : Nat → Int → Entry π → ε) (r : Int)

/-- What can happen in the bay of a recipient, with the deeds that come of it.

* `other`: an entry is added for someone else.
* `stay`: something happens elsewhere. -/
inductive Step : Bay ε → Bay ε → Log ε → Prop
  | add (b : Bay ε) (e : Entry π) :
      Step b { b with waiting := b.waiting ++ [book b.count r e], count := b.count + 1 }
        [⟨.accepted, b.now, r, book b.count r e⟩]
  | other (b : Bay ε) : Step b { b with count := b.count + 1 } []
  | sweep {b : Bay ε} {w : Worker ε} (hw : b.worker = some w) (hclosed : w.closed = true) :
      Step b { b with worker := none } []
  | withdraw {b : Bay ε} (hhanded : b.handed = []) :
      Step b { b with waiting := [], handed := b.waiting } []
  | engage {b : Bay ε} (period : Nat) (hclosed : ∀ w, b.worker = some w → w.closed = true) :
      Step b { b with worker := some (.new r period b.now) } []
  | give {b : Bay ε} {w w' : Worker ε} (hw : b.worker = some w) (hput : w.put b.handed = .ok w') :
      Step b { b with handed := [], worker := some w' } []
  | requeue (b : Bay ε) : Step b { b with waiting := b.handed ++ b.waiting, handed := [] } []
  | move {b : Bay ε} {w w' : Worker ε} {m : Move} (hw : b.worker = some w)
      (hmove : w.move? b.stop b.now m = some w') :
      Step b { b with worker := some w' } (w.deeds b.now m)
  | clear {b : Bay ε} (hstop : b.stop = true) :
      Step b { b with waiting := [] } (b.waiting.map fun x => ⟨.dropped, b.now, r, x⟩)
  | signal (b : Bay ε) (raised : Bool) : Step b { b with stop := raised } []
  | elapse (b : Bay ε) (ms : Nat) : Step b { b with now := b.now + ms } []
  | stay (b : Bay ε) : Step b b []

/-- The bays that a recipient can come to see, with all deeds so far. -/
inductive Reachable : Bay ε → Log ε → Prop
  | start : Reachable {} []
  | step {b b' : Bay ε} {log ds : Log ε} :
      Reachable b log → Step book r b b' ds → Reachable b' (ds ++ log)

end Bay

/-! ### Recipients -/

namespace Worker

variable [Deliverable ε]

@[simp] theorem recipient_hold (w : Worker ε) (x : ε) : (w.hold x).recipient = w.recipient := rfl

theorem Moves.recipient_eq {stop : Bool} {now : Nat} {w w' : Worker ε} {m : Move} {ds : Log ε}
    (h : w.Moves stop now m w' ds) : w'.recipient = w.recipient := by
  cases h <;> rfl

theorem Moves.recipient_deed {stop : Bool} {now : Nat} {w w' : Worker ε} {m : Move} {ds : Log ε}
    (h : w.Moves stop now m w' ds) : ∀ a ∈ ds, a.recipient = w.recipient := by
  cases h with
  | halt =>
    intro a ha
    obtain ⟨x, -, rfl⟩ := List.mem_map.mp ha
    rfl
  | _ => simp [takeUp]

theorem put_eq_ok {w w' : Worker ε} {es : List ε} (h : w.put es = .ok w') :
    w.closed = false ∧ w' = { w with
      delayed := w.delayed ++ es.filter Deliverable.delay
      immediate := w.immediate ++ es.filter fun e => !Deliverable.delay e } := by
  unfold put at h
  split at h
  · cases h
  · rename_i hopen
    exact ⟨by simpa using hopen, (Except.ok.inj h).symm⟩

end Worker

namespace Pool

/-- The worker of a recipient, if it is open. -/
def openWorker? (p : Pool ε) (r : Int) : Option (Worker ε) :=
  (p.worker? r).filter fun w => !w.closed

theorem openWorker?_eq_some_iff {p : Pool ε} {r : Int} {w : Worker ε} :
    p.openWorker? r = some w ↔ p.worker? r = some w ∧ w.closed = false := by
  rw [openWorker?, Option.filter_eq_some_iff, Bool.not_eq_true']

theorem openWorker?_eq_none_iff {p : Pool ε} {r : Int} :
    p.openWorker? r = none ↔ ∀ w, p.worker? r = some w → w.closed = true := by
  simp [openWorker?, Option.filter_eq_none_iff]

end Pool

theorem Waiting.Distinct.of_drops {t : Waiting ε} (h : t.Distinct) (now : Nat) (r : Int) :
    Log.of (t.flatMap fun slot => slot.2.map fun x => (⟨.dropped, now, slot.1, x⟩ : Deed ε)) r =
      (Waiting.entries t r).map fun x => ⟨.dropped, now, r, x⟩ := by
  -- by induction on the slots
  induction t with
  | nil => rfl
  | cons slot t ih =>
    obtain ⟨k, es⟩ := slot
    simp only [Distinct, List.map_cons, List.nodup_cons] at h
    rw [List.flatMap_cons, Log.of_append, ih h.2, Waiting.entries_cons]
    by_cases hk : k = r
    · -- the recipient has no further slot
      have hnil : Waiting.entries t r = [] := by
        have : t.lookup r = none := by
          rw [List.lookup_eq_none_iff]
          intro p hp
          have hne : p.1 ≠ r := fun hpr => h.1 (hk ▸ hpr ▸ List.mem_map_of_mem hp)
          simpa using hne.symm
        simp [Waiting.entries, this]
      rw [hnil, hk, Log.of_eq_self (by simp)]
      simp
    · rw [Log.of_eq_nil (k := k) (by simp) (Ne.symm hk), if_neg hk, List.nil_append]

/-! ### From depots to bays -/

namespace Depot

/-- What a recipient sees of a depot. -/
def bay (d : Depot ε) (r : Int) : Bay ε :=
  ⟨d.pool.waiting.entries r, d.pass.elim [] fun p => p.handed r, d.pool.worker? r, d.stop, d.now,
    d.count⟩

variable [Deliverable ε] (book : Nat → Int → Entry π → ε)

theorem distinct_give {p : Pool ε} (h : p.Distinct) (r : Int) (es : List ε) :
    (p.give r es).Distinct := by
  unfold Pool.give
  split
  · exact h.update r _
  · split
    · exact h.setWorker _
    · exact h.update r _

/-- No event gives a recipient a second slot or a second worker. -/
theorem distinct_step {d : Depot ε} (h : d.pool.Distinct) (e : Event π) :
    (d.step book e).pool.Distinct := by
  -- slots and workers are put in place of those with their recipient, or taken out
  cases e with
  | add r e => exact h.update r _
  | begin order =>
    simp only [step]
    split
    · exact h
    · exact h.sweep
  | proceed =>
    simp only [step]
    split
    · rename_i p _
      unfold proceed
      split
      · split
        · exact h
        · exact h.withdraw _
      · split
        · exact distinct_give h _ _
        · split
          · rename_i hengage
            rcases Pool.engage_eq_some hengage with ⟨rfl, -⟩ | ⟨-, rfl⟩
            · exact h
            · exact h.replace _ _
          · exact h.update _ _
    · exact h
  | move r m =>
    simp only [step]
    split
    · exact h
    · split
      · exact h
      · exact h.setWorker _
  | clear =>
    simp only [step]
    split
    · exact h.clear
    · exact h
  | signal raised => exact h
  | elapse ms => exact h

/-- Entries are withdrawn from a slot. -/
theorem withdraw_bay {d : Depot ε} {p : Pass ε} {r' : Int} {left : List Int}
    (hp : d.pass = some p) (hh : p.handoff = none) (hl : p.left = r' :: left) (r : Int) :
    Bay.Step book r (d.bay r) ((d.proceed p).bay r) [] := by
  have hnone : (d.bay r).handed = [] := by simp [bay, hp, Pass.handed, hh]
  -- the recipient whose turn it is, and all others
  by_cases hr : r = r'
  · subst hr
    have hbay : (d.proceed p).bay r =
        { d.bay r with waiting := [], handed := (d.bay r).waiting } := by
      rcases hes : d.pool.waiting.entries r with - | ⟨e, es⟩ <;>
        simp [proceed, hh, hl, bay, Pool.withdraw, Waiting.entries_erase, Pass.handed, hes,
          Pool.worker?]
    rw [hbay]
    exact .withdraw hnone
  · have hbay : (d.proceed p).bay r = { d.bay r with handed := [] } := by
      rcases hes : d.pool.waiting.entries r' with - | ⟨e, es⟩ <;>
        simp [proceed, hh, hl, bay, Pool.withdraw, Waiting.entries_erase, Pass.handed, hes,
          Pool.worker?, hr, Ne.symm hr]
    rw [hbay, ← hnone]
    exact .stay _

/-- Entries on their way go back to their slot. -/
theorem requeue_bay {d : Depot ε} {p : Pass ε} {h : Handoff ε} (hp : d.pass = some p)
    (hh : p.handoff = some h) (r : Int) :
    Bay.Step book r (d.bay r) (Depot.bay { d with
      pool := d.pool.requeue h.recipient h.entries, pass := some { p with handoff := none } } r)
      [] := by
  -- the entries go back to the front of the slot
  by_cases hr : r = h.recipient
  · have hbay : Depot.bay { d with
        pool := d.pool.requeue h.recipient h.entries
        pass := some { p with handoff := none } } r =
        { d.bay r with waiting := (d.bay r).handed ++ (d.bay r).waiting, handed := [] } := by
      simp [bay, hp, hh, Pass.handed, Pool.requeue, Waiting.entries_update, Pool.worker?, hr]
    rw [hbay]
    exact .requeue _
  · have hbay : Depot.bay { d with
        pool := d.pool.requeue h.recipient h.entries
        pass := some { p with handoff := none } } r = d.bay r := by
      simp [bay, hp, hh, Pass.handed, Pool.requeue, Waiting.entries_update, Pool.worker?, hr,
        Ne.symm hr]
    rw [hbay]
    exact .stay _

/-- Entries on their way are given to a worker, or go back to their slot. -/
theorem give_bay {d : Depot ε} {p : Pass ε} {h : Handoff ε} (hp : d.pass = some p)
    (hh : p.handoff = some h) (r : Int) :
    Bay.Step book r (d.bay r) (Depot.bay { d with
      pool := d.pool.give h.recipient h.entries, pass := some { p with handoff := none } } r)
      [] := by
  -- without a worker that takes them, the entries go back to their slot
  rcases hw : d.pool.worker? h.recipient with - | w
  · rw [show d.pool.give h.recipient h.entries = d.pool.requeue h.recipient h.entries by
      simp [Pool.give, hw]]
    exact requeue_bay book hp hh r
  · rcases hput : w.put h.entries with rejected | w'
    · -- the worker has closed meanwhile, and hands back what it was given
      have hrej : rejected = h.entries := by
        unfold Worker.put at hput
        split at hput
        · exact (Except.error.inj hput).symm
        · cases hput
      rw [show d.pool.give h.recipient h.entries = d.pool.requeue h.recipient h.entries by
        simp [Pool.give, hw, hput, hrej]]
      exact requeue_bay book hp hh r
    · have hrec : w'.recipient = h.recipient := by
        rw [(Worker.put_eq_ok hput).2, ← Pool.recipient_of_worker? hw]
      rw [show d.pool.give h.recipient h.entries = d.pool.setWorker w' by
        simp [Pool.give, hw, hput]]
      -- the worker that takes the entries is the only one of its recipient
      by_cases hr : r = h.recipient
      · have hbay : Depot.bay { d with
            pool := d.pool.setWorker w', pass := some { p with handoff := none } } r =
            { d.bay r with handed := [], worker := some w' } := by
          simp [bay, Pass.handed, Pool.worker?_setWorker, hrec, hr, hw]
        rw [hbay]
        exact .give (w := w) (by simp [bay, hr, hw]) (by simpa [bay, hp, Pass.handed, hh, hr])
      · have hbay : Depot.bay { d with
            pool := d.pool.setWorker w', pass := some { p with handoff := none } } r =
            d.bay r := by
          simp [bay, hp, hh, Pass.handed, Pool.worker?_setWorker, hrec, hr, Ne.symm hr]
        rw [hbay]
        exact .stay _

/-- A worker is engaged for entries on their way. -/
theorem engage_bay {d : Depot ε} {p : Pass ε} {h : Handoff ε} {q : Pool ε} {room : Nat}
    (hp : d.pass = some p) (hh : p.handoff = some h)
    (hq : d.pool.engage p.room d.now h.recipient = some (q, room)) (r : Int) :
    Bay.Step book r (d.bay r) (Depot.bay { d with
      pool := q, pass := some { p with room, handoff := some { h with engaged := true } } } r)
      [] := by
  -- the worker is there already, or a new one takes the place of a closed one
  rcases Pool.engage_eq_some hq with ⟨rfl, -⟩ | ⟨hclosed, rfl⟩
  · have hbay : Depot.bay { d with
        pass := some { p with room, handoff := some { h with engaged := true } } } r =
        d.bay r := by
      simp [bay, hp, hh, Pass.handed]
    rw [hbay]
    exact .stay _
  · have hbay : Depot.bay { d with
        pool := (d.pool.dismiss h.recipient).hire d.now h.recipient
        pass := some { p with room, handoff := some { h with engaged := true } } } r =
        { d.bay r with worker :=
            if r = h.recipient then some (.new r d.pool.period d.now) else d.pool.worker? r } := by
      by_cases hr : r = h.recipient <;>
        simp [bay, hp, hh, Pass.handed, Pool.worker?_hire, Pool.worker?_dismiss, hr]
    rw [hbay]
    by_cases hr : r = h.recipient
    · rw [if_pos hr]
      exact .engage _ (by simpa [bay, hr] using hclosed)
    · rw [if_neg hr]
      exact .stay _

/-- A pass goes on: for each recipient this is a step in its bay. -/
theorem proceed_bay {d : Depot ε} {p : Pass ε} (hp : d.pass = some p) (r : Int) :
    Bay.Step book r (d.bay r) ((d.proceed p).bay r) [] := by
  rcases hh : p.handoff with - | h
  · rcases hl : p.left with - | ⟨r', left⟩
    · -- the pass is over
      have hbay : (d.proceed p).bay r = d.bay r := by
        simp [proceed, hh, hl, bay, hp, Pass.handed]
      rw [hbay]
      exact .stay _
    · exact withdraw_bay book hp hh hl r
  · rcases hengaged : h.engaged with - | -
    · rcases hq : d.pool.engage p.room d.now h.recipient with - | ⟨q, room⟩
      · simpa [proceed, hh, hengaged, hq] using requeue_bay book hp hh r
      · simpa [proceed, hh, hengaged, hq] using engage_bay book hp hh hq r
    · simpa [proceed, hh, hengaged] using give_bay book hp hh r

/-- An entry is added: for its recipient it waits, for the others only the count goes up. -/
theorem add_bay (d : Depot ε) (r' : Int) (e : Entry π) (r : Int) :
    ∃ ds, Log.of (d.step book (.add r' e)).log r = ds ++ Log.of d.log r ∧
      Bay.Step book r (d.bay r) ((d.step book (.add r' e)).bay r) ds := by
  by_cases hr : r = r'
  · subst hr
    refine ⟨[⟨.accepted, d.now, r, book d.count r e⟩], by simp [step, Log.of], ?_⟩
    have hbay : (d.step book (.add r e)).bay r =
        { d.bay r with
          waiting := (d.bay r).waiting ++ [book d.count r e], count := d.count + 1 } := by
      simp [step, bay, Pool.add, Waiting.entries_update, Pool.worker?]
    rw [hbay]
    exact .add (d.bay r) e
  · refine ⟨[], by simp [step, Log.of, Ne.symm hr], ?_⟩
    have hbay : (d.step book (.add r' e)).bay r = { d.bay r with count := d.count + 1 } := by
      simp [step, bay, Pool.add, Waiting.entries_update, hr, Pool.worker?]
    rw [hbay]
    exact .other (d.bay r)

/-- A pass begins: the worker is forgotten if it is closed. -/
theorem begin_bay {d : Depot ε} (h : d.pool.Distinct) (order : List Int) (r : Int) :
    Bay.Step book r (d.bay r) ((d.step book (.begin order)).bay r) [] := by
  -- only the worker of this recipient matters, and only whether it is closed
  rcases hp : d.pass with - | p
  · have hbay : (d.step book (.begin order)).bay r =
        { d.bay r with worker := d.pool.sweep.worker? r } := by
      simp [step, hp, bay, Pass.handed]
    rw [hbay, h.worker?_sweep]
    rcases hw : d.pool.worker? r with - | w
    · rw [Option.filter_none, ← hw]
      exact .stay _
    · cases hc : w.closed with
      | false =>
        rw [show Option.filter (fun w : Worker ε => !w.closed) (some w) = d.pool.worker? r by
          simp [Option.filter, hc, hw]]
        exact .stay _
      | true =>
        rw [show Option.filter (fun w : Worker ε => !w.closed) (some w) = none by
          simp [Option.filter, hc]]
        exact .sweep hw hc
  · -- passes do not overlap
    have hbay : (d.step book (.begin order)).bay r = d.bay r := by simp [step, hp]
    rw [hbay]
    exact .stay _

/-- A worker makes a move: it does so in the bay of its recipient, and nowhere else. -/
theorem move_bay {d : Depot ε} {r' : Int} {m : Move} {w w' : Worker ε}
    (hw : d.pool.worker? r' = some w) (hm : w.move? d.stop d.now m = some w') (r : Int) :
    ∃ ds, Log.of (w.deeds d.now m ++ d.log) r = ds ++ Log.of d.log r ∧
      Bay.Step book r (d.bay r) (Depot.bay { d with
        pool := d.pool.setWorker w', log := w.deeds d.now m ++ d.log } r) ds := by
  have hmoves := Worker.moves_of_move? hm
  have hrec : w.recipient = r' := Pool.recipient_of_worker? hw
  have hrec' : w'.recipient = r' := hmoves.recipient_eq.trans hrec
  rw [Log.of_append]
  -- the move is made in the bay of the recipient
  by_cases hr : r = r'
  · subst hr
    refine ⟨w.deeds d.now m, ?_, ?_⟩
    · rw [Log.of_eq_self fun a ha => (hmoves.recipient_deed a ha).trans hrec]
    · have hbay : Depot.bay { d with
          pool := d.pool.setWorker w', log := w.deeds d.now m ++ d.log } r =
          { d.bay r with worker := some w' } := by
        simp [bay, Pool.worker?_setWorker, hrec', hw]
      rw [hbay]
      exact .move (m := m) hw hm
  · refine ⟨[], ?_, ?_⟩
    · rw [Log.of_eq_nil (fun a ha => (hmoves.recipient_deed a ha).trans hrec) hr]
    · have hbay : Depot.bay { d with
          pool := d.pool.setWorker w', log := w.deeds d.now m ++ d.log } r = d.bay r := by
        simp [bay, Pool.worker?_setWorker, hrec', hr]
      rw [hbay]
      exact .stay _

/-- Whatever happens to a depot is, for every recipient, a step in its bay. -/
theorem step_bay {d : Depot ε} (h : d.pool.Distinct) (e : Event π) (r : Int) :
    ∃ ds, Log.of (d.step book e).log r = ds ++ Log.of d.log r ∧
      Bay.Step book r (d.bay r) ((d.step book e).bay r) ds := by
  have same : ∃ ds, Log.of d.log r = ds ++ Log.of d.log r ∧
      Bay.Step book r (d.bay r) (d.bay r) ds := ⟨[], rfl, .stay _⟩
  -- one lemma for each event; what cannot happen leaves the bay as it is
  cases e with
  | add r' e => exact add_bay book d r' e r
  | begin order =>
    have hlog : (d.step book (.begin order)).log = d.log := by
      simp only [step]
      split <;> rfl
    exact ⟨[], by rw [hlog]; rfl, begin_bay book h order r⟩
  | proceed =>
    rcases hp : d.pass with - | p
    · simpa only [step, hp] using same
    · refine ⟨[], ?_, by simpa [step, hp] using proceed_bay book hp r⟩
      obtain ⟨pool, pass, hframe⟩ := d.proceed_frame p
      simp only [step, hp, hframe]
      rfl
  | move r' m =>
    rcases hw : d.pool.worker? r' with - | w
    · simpa only [step, hw] using same
    · rcases hm : w.move? d.stop d.now m with - | w'
      · simpa only [step, hw, hm] using same
      · simpa only [step, hw, hm] using move_bay book hw hm r
  | clear =>
    cases hs : d.stop with
    | false => simpa [step, hs] using same
    | true =>
      refine ⟨(d.pool.waiting.entries r).map fun x => ⟨.dropped, d.now, r, x⟩, ?_, ?_⟩
      · simp only [step, hs, if_true]
        rw [Log.of_append, h.waiting.of_drops]
      · have hbay : (d.step book (.clear)).bay r = { d.bay r with waiting := [] } := by
          simp [step, hs, bay, Pool.clear, Pool.worker?]
        rw [hbay]
        exact .clear (b := d.bay r) hs
  | signal raised => exact ⟨[], rfl, .signal (d.bay r) raised⟩
  | elapse ms => exact ⟨[], rfl, .elapse (d.bay r) ms⟩

theorem distinct_run (max period : Nat) (events : List (Event π)) :
    ((start max period : Depot ε).run book events).pool.Distinct := by
  induction events using List.reverseRecOn with
  | nil => exact ⟨List.nodup_nil, List.nodup_nil⟩
  | append_singleton events e ih =>
    rw [run_concat]
    exact distinct_step book ih e

/-- **Every recipient sees one step after the other in its bay**, whatever happens to the depot. -/
theorem bay_reachable (max period : Nat) (events : List (Event π)) (r : Int) :
    Bay.Reachable book r (((start max period : Depot ε).run book events).bay r)
      (Log.of ((start max period : Depot ε).run book events).log r) := by
  induction events using List.reverseRecOn with
  | nil => exact .start
  | append_singleton events e ih =>
    rw [run_concat]
    obtain ⟨ds, hlog, hstep⟩ := step_bay book (distinct_run book max period events) e r
    rw [hlog]
    exact ih.step hstep

end Depot

end Courier.Delivery

import Courier.Proofs.Delivery.Shift

/-!
Bare entries.

Workers see of an entry only what `Deliverable` tells.  A `Faithful` map changes entries without
changing what workers see, so it commutes with all that workers, pools and passes do: a run whose
entries are mapped afterwards is the run of the mapped entries (`Depot.map_run`, `Shift.map_run`).

Taking what is left of a tracked entry is such a map.  So numbers and histories are for proofs only:
forget them, and the run is that of the bare entries (`Depot.run_bare`, `Shift.run_bare`).  That is
why theorems about tracked entries are theorems about all entries: whatever is said of times,
recipients and outcomes in a run of tracked entries holds of the run of the entries themselves.

The lemmas follow the definitions from the inside out: one for each operation of a worker
(`Faithful.map_move?`, `Faithful.map_deeds`), one for each operation of a pool, one for each event.
There is nothing to prove in any of them but that the operation looks at an entry through
`Deliverable` only.
-/

namespace Courier.Delivery

variable {ε ε' π : Type}

/-! ### Maps of what holds entries -/

/-- The worker with its entries mapped. -/
def Worker.map (f : ε → ε') (w : Worker ε) : Worker ε' :=
  ⟨w.recipient, w.ticker, w.delayed.map f, w.immediate.map f, w.inHand.map f, w.closed⟩

/-- The slots with their entries mapped. -/
def Waiting.map (f : ε → ε') (t : Waiting ε) : Waiting ε' :=
  List.map (fun slot => (slot.1, slot.2.map f)) t

/-- The pool with its entries mapped. -/
def Pool.map (f : ε → ε') (p : Pool ε) : Pool ε' :=
  ⟨p.max, p.period, p.waiting.map f, p.workers.map (Worker.map f)⟩

/-- The pass with its entries mapped. -/
def Pass.map (f : ε → ε') (p : Pass ε) : Pass ε' :=
  ⟨p.room, p.left, p.handoff.map fun h => ⟨h.recipient, h.entries.map f, h.engaged⟩⟩

/-- The deed with its entry mapped. -/
def Deed.map (f : ε → ε') (a : Deed ε) : Deed ε' := ⟨a.turn, a.time, a.recipient, f a.item⟩

/-- The depot with its entries mapped. -/
def Depot.map (f : ε → ε') (d : Depot ε) : Depot ε' :=
  ⟨d.pool.map f, d.pass.map (Pass.map f), d.stop, d.now, d.count, d.log.map (Deed.map f)⟩

/-- The shift with its entries mapped. -/
def Shift.map (f : ε → ε') (s : Shift ε) : Shift ε' :=
  ⟨s.worker.map f, s.polling, s.stop, s.now, s.count, s.log.map (Deed.map f)⟩

/-- The map keeps what workers see of entries. -/
structure Faithful [Deliverable ε] [Deliverable ε'] (f : ε → ε') : Prop where
  delay : ∀ x, Deliverable.delay (f x) = Deliverable.delay x
  isDone : ∀ x, Deliverable.isDone (f x) = Deliverable.isDone x
  answer : ∀ x o, Deliverable.answer (f x) o =
    (f (Deliverable.answer x o).1, (Deliverable.answer x o).2)

theorem Tracked.faithful_rest : Faithful (Tracked.rest : Tracked π → Entry π) :=
  ⟨fun _ => rfl, fun _ => rfl, fun _ _ => rfl⟩

/-! ### Workers -/

section

variable [Deliverable ε] [Deliverable ε'] {f : ε → ε'} (hf : Faithful f)
include hf

theorem Faithful.map_hold (w : Worker ε) (x : ε) : (w.hold x).map f = (w.map f).hold (f x) := by
  cases hdone : Deliverable.isDone x <;>
    simp [Worker.hold, Worker.map, hf.isDone, hdone]

theorem Faithful.map_takeUp (now : Nat) (w : Worker ε) (x : ε) :
    (w.takeUp now x).map f = (w.map f).takeUp now (f x) := by
  simp [Worker.takeUp, Deed.map, hf.isDone, Worker.map]

theorem Faithful.map_tick (w : Worker ε) (now : Nat) :
    (w.tick now).map f = (w.map f).tick now := by
  unfold Worker.tick
  rcases hq : w.delayed with - | ⟨x, rest⟩
  · -- nothing is delayed: whether the worker closes depends on the immediate queue
    rcases himm : w.immediate with - | ⟨y, ys⟩ <;> simp [Worker.map, hq, himm]
  · have hq' : (w.map f).delayed = f x :: rest.map f := by simp [Worker.map, hq]
    simp only [hq', hf.map_hold]
    rfl

theorem Faithful.map_takeImmediate (w : Worker ε) :
    w.takeImmediate.map f = (w.map f).takeImmediate := by
  unfold Worker.takeImmediate
  rcases hq : w.immediate with - | ⟨x, rest⟩
  · simp [Worker.map, hq]
  · have hq' : (w.map f).immediate = f x :: rest.map f := by simp [Worker.map, hq]
    simp only [hq', hf.map_hold]
    rfl

theorem Faithful.map_answer (w : Worker ε) (now : Nat) (o : Outcome) :
    (w.answer now o).map f = (w.map f).answer now o := by
  unfold Worker.answer
  rcases hhand : w.inHand with - | x
  · simp [Worker.map, hhand]
  · have hhand' : (w.map f).inHand = some (f x) := by simp [Worker.map, hhand]
    simp only [hhand', hf.answer]
    split
    · exact hf.map_hold w _
    · simp [Worker.map]

theorem Faithful.map_put (w : Worker ε) (es : List ε) :
    (w.map f).put (es.map f) =
      match w.put es with
      | .ok w' => .ok (w'.map f)
      | .error rejected => .error (rejected.map f) := by
  have hdelay : (Deliverable.delay ∘ f) = Deliverable.delay := funext hf.delay
  have hrest : ((fun x => !Deliverable.delay x) ∘ f) = fun x => !Deliverable.delay x :=
    funext fun x => congrArg Bool.not (hf.delay x)
  cases hc : w.closed <;>
    simp [Worker.put, Worker.map, hc, List.filter_map, hdelay, hrest]

theorem Faithful.map_move? (stop : Bool) (now : Nat) (w : Worker ε) (m : Move) :
    (w.map f).move? stop now m = (w.move? stop now m).map (Worker.map f) := by
  -- whether a worker is free, which queue is empty and what the ticker shows does not depend on
  -- entries
  have hfree : (w.map f).isFree = w.isFree := by simp [Worker.isFree, Worker.map]
  cases m with
  | wake =>
    simp only [Worker.move?, hfree, ← hf.map_takeImmediate]
    rw [show (w.map f).immediate.isEmpty = w.immediate.isEmpty by simp [Worker.map]]
    split <;> rfl
  | tick =>
    simp only [Worker.move?, hfree, ← hf.map_tick]
    rw [show (w.map f).ticker = w.ticker from rfl]
    split <;> rfl
  | answer o =>
    simp only [Worker.move?, ← hf.map_answer]
    rw [show (w.map f).closed = w.closed from rfl,
      show (w.map f).inHand.isSome = w.inHand.isSome by simp [Worker.map]]
    split <;> rfl
  | halt =>
    simp only [Worker.move?, hfree]
    split <;> rfl

theorem Faithful.map_deeds (now : Nat) (w : Worker ε) (m : Move) :
    (w.deeds now m).map (Deed.map f) = (w.map f).deeds now m := by
  -- the deeds of a move are for entries that are mapped as well
  cases m with
  | wake =>
    rcases hq : w.immediate with - | ⟨x, rest⟩
    · simp [Worker.deeds, Worker.map, hq]
    · have hq' : (w.map f).immediate = f x :: rest.map f := by simp [Worker.map, hq]
      simp [Worker.deeds, hq, hq', hf.map_takeUp]
  | tick =>
    rcases hq : w.delayed with - | ⟨x, rest⟩
    · simp [Worker.deeds, Worker.map, hq]
    · have hq' : (w.map f).delayed = f x :: rest.map f := by simp [Worker.map, hq]
      simp [Worker.deeds, hq, hq', hf.map_takeUp]
  | answer o =>
    rcases hhand : w.inHand with - | x
    · simp [Worker.deeds, Worker.map, hhand]
    · have hhand' : (w.map f).inHand = some (f x) := by simp [Worker.map, hhand]
      simp only [Worker.deeds, hhand, hhand', Option.toList_some, List.flatMap_singleton, hf.answer]
      rw [List.map_append]
      congr 1
      split
      · exact congrArg (fun a => [a]) (hf.map_takeUp now w _)
      · rfl
  | halt => simp [Worker.deeds, Worker.map, Deed.map, Function.comp_def]

end

/-! ### Pools -/

namespace Waiting

variable (f : ε → ε')

theorem map_entries (t : Waiting ε) (r : Int) : (t.map f).entries r = (t.entries r).map f := by
  induction t with
  | nil => rfl
  | cons slot t ih =>
    have hcons : Waiting.map f (slot :: t) = (slot.1, slot.2.map f) :: Waiting.map f t := rfl
    rw [hcons, entries_cons, entries_cons, ih]
    split <;> rfl

theorem map_update (t : Waiting ε) (r : Int) (g : List ε → List ε) (g' : List ε' → List ε')
    (hg : ∀ es, (g es).map f = g' (es.map f)) :
    (t.update r g).map f = (t.map f).update r g' := by
  induction t with
  | nil => simp [Waiting.map, update, hg]
  | cons slot t ih =>
    by_cases h : slot.1 = r
    · simp [Waiting.map, update, h, hg]
    · have hcons : Waiting.map f (slot :: t) = (slot.1, slot.2.map f) :: Waiting.map f t := rfl
      rw [hcons, update, update, if_neg h, if_neg h, ← ih]
      rfl

theorem map_erase (t : Waiting ε) (r : Int) : (t.erase r).map f = (t.map f).erase r := by
  simp only [Waiting.map, erase, List.filter_map]
  rfl

end Waiting

namespace Pool

variable (f : ε → ε')

theorem map_worker? (p : Pool ε) (r : Int) :
    (p.map f).worker? r = (p.worker? r).map (Worker.map f) := by
  simp only [worker?, map, List.find?_map]
  rfl

theorem map_setWorker (p : Pool ε) (w : Worker ε) :
    (p.setWorker w).map f = (p.map f).setWorker (w.map f) := by
  have hset : ∀ v : Worker ε, (if v.recipient = w.recipient then w else v).map f =
      if (v.map f).recipient = (w.map f).recipient then w.map f else v.map f := by
    intro v
    exact apply_ite (Worker.map f) _ _ _
  simp [map, setWorker, Function.comp_def, hset]

theorem map_sweep (p : Pool ε) : p.sweep.map f = (p.map f).sweep := by
  simp only [map, sweep, List.filter_map]
  rfl

theorem map_requeue (p : Pool ε) (r : Int) (es : List ε) :
    (p.requeue r es).map f = (p.map f).requeue r (es.map f) := by
  simp only [map, requeue]
  rw [Waiting.map_update f p.waiting r (es ++ ·) (es.map f ++ ·) fun es' => List.map_append]

theorem map_add (p : Pool ε) (r : Int) (x : ε) : (p.add r x).map f = (p.map f).add r (f x) := by
  simp only [map, add]
  rw [Waiting.map_update f p.waiting r (· ++ [x]) (· ++ [f x]) fun es' => List.map_append]

theorem map_dismiss (p : Pool ε) (r : Int) : (p.dismiss r).map f = (p.map f).dismiss r := by
  simp only [map, dismiss, List.filter_map]
  rfl

theorem map_hire (p : Pool ε) (now : Nat) (r : Int) :
    (p.hire now r).map f = (p.map f).hire now r := by
  simp [map, hire, Worker.map, Worker.new]

theorem map_engage (p : Pool ε) (room now : Nat) (r : Int) :
    (p.map f).engage room now r = (p.engage room now r).map (Prod.map (map f) id) := by
  unfold engage
  rw [map_worker?]
  rcases p.worker? r with - | w
  · simp only [Option.map_none]
    split
    · simp [map_hire]
    · rfl
  · simp only [Option.map_some]
    rw [show (w.map f).closed = w.closed from rfl]
    split
    · simp [map_hire, map_dismiss]
    · rfl

end Pool

theorem Faithful.map_give [Deliverable ε] [Deliverable ε'] {f : ε → ε'} (hf : Faithful f)
    (p : Pool ε) (r : Int) (es : List ε) : (p.give r es).map f = (p.map f).give r (es.map f) := by
  unfold Pool.give
  rw [Pool.map_worker?]
  rcases p.worker? r with - | w
  · exact Pool.map_requeue f p r es
  · simp only [Option.map_some, hf.map_put]
    rcases w.put es with rejected | w'
    · exact Pool.map_requeue f p r rejected
    · exact Pool.map_setWorker f p w'

/-! ### Depots -/

namespace Depot

variable [Deliverable ε] [Deliverable ε'] {f : ε → ε'} (hf : Faithful f)
include hf

theorem map_proceed (d : Depot ε) (p : Pass ε) :
    (d.proceed p).map f = (d.map f).proceed (p.map f) := by
  unfold proceed
  rcases hh : p.handoff with - | h
  · rcases hl : p.left with - | ⟨r, left⟩
    · simp [map, Pass.map, hh, hl]
    · have hentries := Waiting.map_entries f d.pool.waiting r
      rcases hes : d.pool.waiting.entries r with - | ⟨x, xs⟩ <;>
        simp [map, Pass.map, hh, hl, Pool.withdraw, Pool.map, Waiting.map_erase, hes, hentries]
  · rcases hengaged : h.engaged with - | -
    · have hengage := Pool.map_engage f d.pool p.room d.now h.recipient
      rcases hq : d.pool.engage p.room d.now h.recipient with - | ⟨q, room⟩ <;>
        simp [map, Pass.map, hh, hengaged, hengage, hq, Pool.map_requeue]
    · simp [map, Pass.map, hh, hengaged, hf.map_give]

variable {book : Nat → Int → Entry π → ε} {book' : Nat → Int → Entry π → ε'}

theorem map_step (hbook : ∀ n r e, f (book n r e) = book' n r e) (d : Depot ε) (e : Event π) :
    (d.step book e).map f = (d.map f).step book' e := by
  -- each event is carried over by the lemma about its operation
  cases e with
  | add r e =>
    simp [step, map, Pool.map_add, Deed.map, hbook]
  | begin order =>
    rcases hp : d.pass with - | p
    · have hsweep := Pool.map_sweep f d.pool
      have hroom : (d.pool.sweep.map f).room = d.pool.sweep.room := by simp [Pool.room, Pool.map]
      simp [step, map, hp, Pass.map, ← hsweep, hroom]
    · simp [step, map, hp]
  | proceed =>
    rcases hp : d.pass with - | p
    · simp [step, map, hp]
    · have hp' : (d.map f).pass = some (p.map f) := by simp [map, hp]
      simp only [step, hp, hp']
      exact map_proceed hf d p
  | move r m =>
    have hworker := Pool.map_worker? f d.pool r
    rcases hw : d.pool.worker? r with - | w
    · simp [step, map, hw, hworker]
    · have hmove := hf.map_move? d.stop d.now w m
      rcases hm : w.move? d.stop d.now m with - | w'
      · simp [step, map, hw, hworker, hm, hmove]
      · simp [step, map, hw, hworker, hm, hmove, Pool.map_setWorker, hf.map_deeds]
  | clear =>
    -- what is dropped is dropped for the same recipients
    have hdrops : ∀ t : Waiting ε,
        (t.flatMap fun slot => slot.2.map fun x =>
          (⟨.dropped, d.now, slot.1, x⟩ : Deed ε)).map (Deed.map f) =
        (t.map f).flatMap fun slot => slot.2.map fun x => ⟨.dropped, d.now, slot.1, x⟩ := by
      intro t
      simp [Waiting.map, List.map_flatMap, List.flatMap_map, Deed.map, Function.comp_def]
    cases hstop : d.stop
    · simp [step, map, hstop]
    · simp only [step, map, hstop, if_true, List.map_append, hdrops]
      rfl
  | signal raised => rfl
  | elapse ms => rfl

/-- The run of the mapped entries is the mapped run. -/
theorem map_run (hbook : ∀ n r e, f (book n r e) = book' n r e) (d : Depot ε)
    (events : List (Event π)) : (d.run book events).map f = (d.map f).run book' events := by
  induction events generalizing d with
  | nil => rfl
  | cons e events ih => rw [run_cons, run_cons, ih, map_step hf hbook]

end Depot

/-! ### Shifts -/

theorem map_bookAll {f : ε → ε'} {book : Nat → Int → Entry π → ε} {book' : Nat → Int → Entry π → ε'}
    (hbook : ∀ n r e, f (book n r e) = book' n r e) (n : Nat) (r : Int) (es : List (Entry π)) :
    (bookAll book n r es).map f = bookAll book' n r es := by
  induction es generalizing n with
  | nil => rfl
  | cons e es ih => rw [bookAll, bookAll, List.map_cons, hbook, ih]

namespace Shift

variable [Deliverable ε] [Deliverable ε'] {f : ε → ε'} (hf : Faithful f)
variable {book : Nat → Int → Entry π → ε} {book' : Nat → Int → Entry π → ε'}
include hf

theorem map_step (hbook : ∀ n r e, f (book n r e) = book' n r e) (s : Shift ε) (e : Occasion π) :
    (s.step book e).map f = (s.map f).step book' e := by
  -- the same for one worker, whose events are fewer
  cases e with
  | put entries =>
    have hxs := map_bookAll hbook s.count s.worker.recipient entries
    have hput := hf.map_put s.worker (bookAll book s.count s.worker.recipient entries)
    rw [hxs] at hput
    have hrecipient : (s.worker.map f).recipient = s.worker.recipient := rfl
    rcases hp : s.worker.put (bookAll book s.count s.worker.recipient entries) with rejected | w
    · rw [hp] at hput
      simp only [step, map, hrecipient, hp, hput]
    · rw [hp] at hput
      have hlog : (((bookAll book s.count s.worker.recipient entries).map
          fun x => (⟨.accepted, s.now, s.worker.recipient, x⟩ : Deed ε)).reverse).map (Deed.map f) =
          ((bookAll book' s.count s.worker.recipient entries).map
            fun x => ⟨.accepted, s.now, s.worker.recipient, x⟩).reverse := by
        rw [← hxs, List.map_reverse, List.map_map, List.map_map]
        rfl
      simp only [step, map, hrecipient, hp, hput, List.map_append, hlog]
  | poll =>
    have hfree : (s.worker.map f).isFree = s.worker.isFree := by simp [Worker.isFree, Worker.map]
    have himm : (s.worker.map f).immediate.isEmpty = s.worker.immediate.isEmpty := by
      simp [Worker.map]
    simp only [step]
    rw [show (s.map f).worker = s.worker.map f from rfl, hfree, himm]
    split <;> rfl
  | rouse => rfl
  | move m =>
    have hmove := hf.map_move? s.stop s.now s.worker m
    have hmay : (s.map f).may m = s.may m := by cases m <;> rfl
    rcases hm : s.worker.move? s.stop s.now m with - | w
    · rw [hm] at hmove
      simp only [step, hm]
      rw [show (s.map f).worker.move? (s.map f).stop (s.map f).now m = none from hmove]
    · rw [hm] at hmove
      simp only [step, hm, hmay]
      rw [show (s.map f).worker.move? (s.map f).stop (s.map f).now m = some (w.map f) from hmove]
      split
      · simp [map, hf.map_deeds]
      · rfl
  | signal raised => rfl
  | elapse ms => rfl

/-- The run of the mapped entries is the mapped run. -/
theorem map_run (hbook : ∀ n r e, f (book n r e) = book' n r e) (s : Shift ε)
    (events : List (Occasion π)) : (s.run book events).map f = (s.map f).run book' events := by
  induction events generalizing s with
  | nil => rfl
  | cons e events ih => rw [run_cons, run_cons, ih, map_step hf hbook]

end Shift

/-! ### Bare runs -/

/-- Bare entries come in as they are. -/
def bare (_number : Nat) (_recipient : Int) (e : Entry π) : Entry π := e

/-- Without numbers and histories, a run is the run of the bare entries. -/
theorem Depot.run_bare (max period : Nat) (events : List (Event π)) :
    ((start max period).run Tracked.book events).map Tracked.rest =
      (start max period).run bare events :=
  map_run Tracked.faithful_rest (fun _ _ _ => rfl) (start max period) events

theorem Shift.run_bare (r : Int) (period : Nat) (events : List (Occasion π)) :
    ((start r period).run Tracked.book events).map Tracked.rest =
      (start r period).run bare events :=
  map_run Tracked.faithful_rest (fun _ _ _ => rfl) (start r period) events

end Courier.Delivery

import Courier.Proofs.Delivery.Shutdown
import Courier.Proofs.Delivery.Throttle
import Courier.Proofs.Delivery.Yard

/-!
Immediate entries do not wait for a tick.

What has come in for a recipient and has not got further than the immediate queue is `fresh`: no
call has been made for it, and it is in the order in which it has come in.  That is the invariant of
this module (`Bay.Intake`).  It rests on `Bay.Step.fresh_sublist`: in one step of a bay, what is
fresh loses entries and gets new ones at the end only.

When a worker is left alone, its immediate entries leave the queue one after the other, each with a
first call for it (`Worker.Moves.pressing_eq`); calls for other entries need a tick or an answer.
So whatever else happens at the same instant, the entries that a worker had are called for in turn
as far as they are called for (`Yard.sequel_run`).  Once everything has settled, a worker without a
call under way has called for all of them, because no word is lost; this is where the theorems about
yards are used.

A pass is taken by itself, step after step with nothing in between, and then it is a pass of the
pool (`Yard.depot_passage`), of which the theorems about passes say what is handed over.

Main statement: what a pass hands over at an instant is called for at this instant, in order, as far
as there is no call under way, whatever else the worker waits for (`Yard.bypass_run`).  A worker
makes one call at a time: while it waits for an answer, entries stay in its immediate queue
(`Yard.not_bypass_of_call`).
-/

namespace Courier.Delivery

variable {ε π : Type}

/-! ### Entries that have not been called for -/

namespace Worker

/-- The immediate entries that an open worker has. -/
def fresh (w : Worker ε) : List ε := if w.closed then [] else w.immediate

theorem fresh_of_open {w : Worker ε} (h : w.closed = false) : w.fresh = w.immediate := by
  simp [fresh, h]

theorem fresh_of_closed {w : Worker ε} (h : w.closed = true) : w.fresh = [] := by
  simp [fresh, h]

theorem Moves.fresh_sublist [Deliverable ε] {stop : Bool} {now : Nat} {w w' : Worker ε} {m : Move}
    {ds : Log ε} (h : w.Moves stop now m w' ds) : w'.fresh.Sublist w.fresh := by
  cases h with
  | @wake x rest hopen hhand hq =>
    rw [fresh_of_open (by exact hopen), fresh_of_open hopen, hq]
    exact List.sublist_cons_self x rest
  | tick hopen | idle hopen | onward hopen | back hopen => simp [fresh, hopen]
  | close | halt =>
    rw [fresh_of_closed rfl]
    exact List.nil_sublist _

end Worker

namespace Bay

/-- The entries that have come in and have not got further than the immediate queue. -/
def fresh (b : Bay ε) : List ε := b.worker.elim [] Worker.fresh ++ b.handed ++ b.waiting

/-- Entries leave for the delayed queue or are taken up, and new ones come in at the end. -/
theorem Step.fresh_sublist [Deliverable ε] {book : Nat → Int → Entry π → ε} {r : Int}
    {b b' : Bay ε} {ds : Log ε} (h : Step book r b b' ds) :
    b'.fresh.Sublist (b.fresh ++ ds.items .accepted) := by
  cases h with
  | add e => simp [Bay.fresh]
  | other | signal | elapse | stay => simp [Bay.fresh]
  | sweep hw hclosed => simp [Bay.fresh, hw, Worker.fresh_of_closed hclosed]
  | withdraw hhanded => simp [Bay.fresh, hhanded]
  | engage period hclosed =>
    -- there was no open worker, so nothing was in its queue
    have hnone : b.worker.elim [] Worker.fresh = [] := by
      rcases hw : b.worker with - | w
      · rfl
      · exact Worker.fresh_of_closed (hclosed w hw)
    simp only [Bay.fresh, hnone]
    simp [Worker.fresh, Worker.new]
  | give hw hput =>
    -- of what is given, the delayed entries go into the other queue
    obtain ⟨hopen, rfl⟩ := Worker.put_eq_ok hput
    simp only [Bay.fresh, hw, Option.elim_some, Log.items_nil, List.append_nil]
    rw [Worker.fresh_of_open hopen, Worker.fresh_of_open (by exact hopen)]
    exact (List.filter_sublist.append_left _).append_right _
  | requeue => simp [Bay.fresh]
  | @move w w' m hw hmove =>
    have hmoves := Worker.moves_of_move? hmove
    simp only [Bay.fresh, hw, hmoves.items_accepted, Option.elim_some, List.append_nil]
    exact (hmoves.fresh_sublist.append_right _).append_right _
  | clear hstop =>
    simp only [Bay.fresh, List.append_nil]
    exact (List.sublist_append_left _ _).trans (List.sublist_append_left _ _)

variable {r : Int} {b b' : Bay (Tracked π)} {log ds : Log (Tracked π)}

/-- In a bay an entry is held once: in hand it is no longer fresh. -/
theorem copies_fresh_le (b : Bay (Tracked π)) (n : Nat) {w : Worker (Tracked π)}
    (hw : b.worker = some w) (hopen : w.closed = false) :
    copies n b.fresh + copies n w.inHand.toList ≤ copies n b.held := by
  simp only [fresh, held, hw, Option.elim_some, Worker.fresh_of_open hopen,
    Worker.kept_of_open hopen, copies_append]
  omega

theorem mem_held_of_mem_fresh {x : Tracked π} (hx : x ∈ b.fresh) : x ∈ b.held := by
  simp only [fresh, held, List.mem_append] at hx ⊢
  rcases hx with (hx | hx) | hx
  · refine .inr ?_
    rcases hw : b.worker with - | w
    · simp [hw] at hx
    · simp only [hw, Option.elim_some] at hx ⊢
      cases hclosed : w.closed with
      | true => simp [Worker.fresh_of_closed hclosed] at hx
      | false =>
        rw [Worker.fresh_of_open hclosed] at hx
        simp [Worker.kept_of_open hclosed, hx]
  · exact .inl (.inl hx)
  · exact .inl (.inr hx)

/-- What is known of the entries in a bay that have not got further than the immediate queue.

* `ascending`: they are in the order in which they have come in.
* `delayed`: immediate entries wait for a tick only when they have been asked to wait. -/
structure Intake (b : Bay (Tracked π)) (log : Log (Tracked π)) : Prop where
  ascending : (b.fresh.map Tracked.number).Pairwise (· < ·)
  outcomes : ∀ x ∈ b.fresh, x.outcomes = []
  uncalled : ∀ a ∈ log, a.turn = .sent → ∀ x ∈ b.fresh, a.item.number ≠ x.number
  delayed : ∀ w, b.worker = some w → ∀ x ∈ w.delayed, x.rest.delay = true ∨ x.outcomes ≠ []

theorem Step.delayed (hstep : Step Tracked.book r b b' ds)
    (h : ∀ w, b.worker = some w → ∀ x ∈ w.delayed, x.rest.delay = true ∨ x.outcomes ≠ []) :
    ∀ w, b'.worker = some w → ∀ x ∈ w.delayed, x.rest.delay = true ∨ x.outcomes ≠ [] := by
  intro w hw x hx
  -- an entry gets into the delayed queue by its class, or by an answer
  cases hstep with
  | sweep => cases hw
  | engage =>
    obtain rfl := Option.some.inj hw
    exact absurd hx List.not_mem_nil
  | give hv hput =>
    obtain rfl := Option.some.inj hw
    rw [(Worker.put_eq_ok hput).2] at hx
    rcases List.mem_append.mp hx with hx | hx
    · exact h _ hv x hx
    · exact .inl (List.mem_filter.mp hx).2
  | @move v w' m hv hmove =>
    obtain rfl := Option.some.inj hw
    have hmoves := Worker.moves_of_move? hmove
    generalize v.deeds b.now m = ds at hmoves
    cases hmoves with
    | tick hopen hhand hdue hq => exact h v hv x (by rw [hq]; exact List.mem_cons_of_mem _ hx)
    | back =>
      rcases List.mem_cons.mp hx with rfl | hx
      · exact .inr (by simp [Tracked.answer])
      · exact h v hv x hx
    | wake | idle | close | onward | halt => exact h v hv x hx
  | add | other | withdraw | requeue | clear | signal | elapse | stay => exact h w hw x hx

theorem Intake.step (hintake : Intake b log) (h : Reachable Tracked.book r b log)
    (hstep : Step Tracked.book r b b' ds) : Intake b' (ds ++ log) := by
  have hnew : ∀ x ∈ ds.items .accepted, ∃ e, x = Tracked.book b.count r e := by
    intro x hx
    obtain ⟨a, ha, ht, rfl⟩ := Log.mem_items.mp hx
    exact (hstep.accepted ha ht).2
  have hmem : ∀ x ∈ b'.fresh, x ∈ b.fresh ∨ x ∈ ds.items .accepted :=
    fun x hx => List.mem_append.mp (hstep.fresh_sublist.subset hx)
  constructor
  case ascending =>
    refine List.Pairwise.sublist (hstep.fresh_sublist.map _) ?_
    rw [List.map_append]
    -- new entries have greater numbers than all that are there
    refine List.pairwise_append.mpr ⟨hintake.ascending, ?_, fun n hn k hk => ?_⟩
    · rcases hstep.items_accepted with hitems | ⟨x, hitems⟩ <;> simp [hitems]
    · obtain ⟨x, hx, rfl⟩ := List.mem_map.mp hn
      obtain ⟨y, hy, rfl⟩ := List.mem_map.mp hk
      obtain ⟨e, rfl⟩ := hnew y hy
      exact h.number_lt.1 x (mem_held_of_mem_fresh hx)
  case outcomes =>
    intro x hx
    rcases hmem x hx with hx | hx
    · exact hintake.outcomes x hx
    · obtain ⟨e, rfl⟩ := hnew x hx
      rfl
  case uncalled =>
    intro a ha ht x hx hnumber
    rcases List.mem_append.mp ha with ha | ha
    · -- the entry of a new call is in hand, and there only
      obtain ⟨w, hw, hopen, hhand⟩ := hstep.inHand_of_sent ha ht
      have hreach := h.step hstep
      have hle := copies_fresh_le b' x.number hw hopen
      have hcopies := hreach.copies_held x.number
      have hone := hreach.copies_accepted_le x.number
      have hfresh := copies_pos_iff.mpr ⟨x, hx, rfl⟩
      have hhand' : copies x.number w.inHand.toList = 1 := by simp [hhand, hnumber]
      omega
    · rcases hmem x hx with hx | hx
      · exact hintake.uncalled a ha ht x hx hnumber
      · obtain ⟨e, rfl⟩ := hnew x hx
        have hlt := h.number_lt.2 a ha
        exact absurd hnumber (Nat.ne_of_lt hlt)
  case delayed => exact hstep.delayed hintake.delayed

theorem Reachable.intake (h : Reachable Tracked.book r b log) : Intake b log := by
  induction h with
  | start =>
    exact ⟨List.Pairwise.nil, fun x hx => absurd hx List.not_mem_nil,
      fun a ha => absurd ha List.not_mem_nil, fun _ hw => nomatch hw⟩
  | step h hstep ih => exact ih.step h hstep

end Bay

/-! ### First calls -/

/-- The immediate entries for which a first call has been made, the oldest one first. -/
def Log.firsts (log : Log (Tracked π)) : List (Tracked π) :=
  (log.items .sent).reverse.filter fun x => !x.rest.delay && x.outcomes.isEmpty

theorem Log.firsts_append (ds log : Log (Tracked π)) :
    Log.firsts (ds ++ log) = Log.firsts log ++ Log.firsts ds := by
  simp [Log.firsts]

theorem Log.firsts_of_calm {ds : Log (Tracked π)} (h : ∀ a ∈ ds, a.turn ≠ .sent) :
    Log.firsts ds = [] := by
  have hnone : ds.items .sent = [] := by
    simpa [Log.items, List.filter_eq_nil_iff] using h
  simp [Log.firsts, hnone]

namespace Worker

/-- The immediate entries of a worker that have something to deliver. -/
def pressing [Deliverable ε] (w : Worker ε) : List ε :=
  w.immediate.filter fun x => !Deliverable.isDone x

/-- Each queue of a worker holds what belongs there: entries that have not been called for, and
entries that are delayed or have been asked to wait. -/
structure Filed (w : Worker (Tracked π)) : Prop where
  immediate : ∀ x ∈ w.immediate, x.rest.delay = false ∧ x.outcomes = []
  delayed : ∀ x ∈ w.delayed, x.rest.delay = true ∨ x.outcomes ≠ []

variable {now : Nat} {w w' : Worker (Tracked π)}

/-- An immediate entry is called for when it is taken up, if it has something to deliver. -/
theorem firsts_takeUp {x : Tracked π} (hdelay : x.rest.delay = false) (hx : x.outcomes = []) :
    Log.firsts [w.takeUp now x] = [x].filter fun x => !Deliverable.isDone x := by
  cases hdone : x.rest.units.isEmpty <;> simp [Log.firsts, takeUp, hdelay, hx, hdone]

/-- Calls for delayed entries and for entries that have been called for are no first calls. -/
theorem firsts_takeUp_of_tried {x : Tracked π} (hx : x.rest.delay = true ∨ x.outcomes ≠ []) :
    Log.firsts [w.takeUp now x] = [] := by
  have htried : (!x.rest.delay && x.outcomes.isEmpty) = false := by
    rcases hx with hx | hx <;> simp [hx]
  cases hdone : x.rest.units.isEmpty <;> simp [Log.firsts, takeUp, hdone, htried]

/-- By a move, the first of the pressing entries is called for, or none is. -/
theorem Moves.pressing_eq {m : Move} {ds : Log (Tracked π)} (h : w.Moves false now m w' ds)
    (hfiled : w.Filed) :
    w.pressing = Log.firsts ds ++ if w'.closed then [] else w'.pressing := by
  -- the moves that take up an entry are by the immediate queue, by a tick, or by an answer
  cases h with
  | @wake x rest hopen hhand hq =>
    obtain ⟨hdelay, hx⟩ := hfiled.immediate x (by rw [hq]; exact List.mem_cons_self)
    rw [firsts_takeUp hdelay hx, if_neg (by simp [hopen])]
    simp only [pressing, hq, immediate_hold, ← List.filter_append]
    rfl
  | @tick x rest hopen hhand hdue hq =>
    rw [firsts_takeUp_of_tried (hfiled.delayed x (by rw [hq]; exact List.mem_cons_self)),
      if_neg (by simp [hopen])]
    rfl
  | idle hopen =>
    rw [if_neg (by simp [hopen])]
    rfl
  | close hopen hhand hdue hq himm => simp [pressing, himm, Log.firsts]
  | @onward x o hopen hhand hwait =>
    -- the entry in hand has had an answer, so this is not a first call for it
    have htried : (Deliverable.answer x o).1.rest.delay = true ∨
        (Deliverable.answer x o).1.outcomes ≠ [] := .inr (by simp [Tracked.answer])
    have hfirsts : Log.firsts [w.takeUp now (Deliverable.answer x o).1,
        (⟨.answered o, now, w.recipient, x⟩ : Deed (Tracked π))] = [] := by
      rw [← List.singleton_append, Log.firsts_append, firsts_takeUp_of_tried htried,
        Log.firsts_of_calm (by simp)]
      rfl
    rw [hfirsts, if_neg (by simp [hopen])]
    rfl
  | back hopen hhand hwait =>
    rw [Log.firsts_of_calm (by simp), if_neg (by simp [hopen])]
    rfl
  | halt hopen hhand hstop => cases hstop

/-- No tick is due, and no delayed entry is being sent. -/
structure Undue (now : Nat) (w : Worker (Tracked π)) : Prop where
  ticker : now < w.ticker.next
  inHand : ∀ x, w.inHand = some x → x.rest.delay = false

/-- Without a tick that is due, no delayed entry is taken up. -/
theorem Undue.moves (h : w.Undue now) {stop : Bool} {m : Move} {ds : Log (Tracked π)}
    (himm : ∀ x ∈ w.immediate, x.rest.delay = false) (hmoves : w.Moves stop now m w' ds) :
    w'.Undue now := by
  cases hmoves with
  | @wake x rest hopen hhand hq =>
    refine ⟨h.ticker, fun y hy => ?_⟩
    rw [eq_of_inHand_hold hy]
    exact himm x (by rw [hq]; exact List.mem_cons_self)
  | tick hopen hhand hdue hq => exact absurd h.ticker (Nat.not_lt.mpr hdue)
  | idle hopen hhand hdue => exact absurd h.ticker (Nat.not_lt.mpr hdue)
  | close hopen hhand hdue => exact absurd h.ticker (Nat.not_lt.mpr hdue)
  | @onward x o hopen hhand hwait =>
    refine ⟨h.ticker, fun y hy => ?_⟩
    rw [eq_of_inHand_hold hy]
    simpa using h.inHand x hhand
  | @back x o hopen hhand hwait =>
    -- whoever is asked to wait sets the ticker to a later time
    refine ⟨?_, fun _ hy => nomatch hy⟩
    exact Nat.lt_add_of_pos_right (Nat.pos_of_ne_zero hwait)
  | halt hopen hhand hstop => exact ⟨h.ticker, h.inHand⟩

theorem undue_new (r : Int) (period now : Nat) : (new r period now : Worker (Tracked π)).Undue now :=
  ⟨Nat.lt_add_of_pos_right (Nat.lt_of_lt_of_le Nat.one_pos (Nat.le_max_left ..)),
    fun _ hx => nomatch hx⟩

end Worker

/-! ### What comes of pressing entries -/

namespace Yard

/-- What may have come at the same instant of a worker `w`: the recipient now has the worker `w?`,
and `ds` is what has happened since.

* `firsts`: first calls have been made for the pressing entries in turn; the rest of them still are.
* `undue`: delayed entries are called for only by a tick that is due anyway. -/
structure Sequel (now : Nat) (w : Worker (Tracked π)) (w? : Option (Worker (Tracked π)))
    (ds : Log (Tracked π)) : Prop where
  time : ∀ a ∈ ds, a.turn = .sent → a.time = now
  firsts : w.pressing <+: Log.firsts ds ++ w?.elim [] Worker.pressing
  undue : w.Undue now →
    (∀ v, w? = some v → v.Undue now) ∧ ∀ a ∈ ds, a.turn = .sent → a.item.rest.delay = false

variable {now : Nat} {r : Int} {w : Worker (Tracked π)} {w? w?' : Option (Worker (Tracked π))}
  {a a' : Attention} {ds new : Log (Tracked π)}

theorem Sequel.refl (now : Nat) (w : Worker (Tracked π)) : Sequel now w (some w) [] :=
  ⟨by simp, List.prefix_rfl, fun h => ⟨fun _ hv => Option.some.inj hv ▸ h, by simp⟩⟩

theorem Change.pressing_prefix (h : Change false now r w? a w?' a' new)
    (hfiled : ∀ v, w? = some v → v.Filed) :
    w?.elim [] Worker.pressing <+: Log.firsts new ++ w?'.elim [] Worker.pressing := by
  cases h with
  | calm w? a hds =>
    rw [Log.firsts_of_calm hds]
    exact List.prefix_rfl
  | vacant | hire => exact List.nil_prefix
  | give v a es =>
    show v.pressing <+: [] ++ (v.laden es).pressing
    simp only [Worker.pressing, Worker.laden, List.filter_append, List.nil_append]
    exact List.prefix_append _ _
  | @move v v' a m _ hmay hmoves =>
    show v.pressing <+: _
    rw [hmoves.pressing_eq (hfiled v rfl)]
    cases v'.closed <;> exact List.prefix_rfl
  | cue => exact List.prefix_rfl

theorem Change.undue {stop : Bool} (h : Change stop now r w? a w?' a' new)
    (hfiled : ∀ v, w? = some v → v.Filed) (hundue : ∀ v, w? = some v → v.Undue now) :
    (∀ v, w?' = some v → v.Undue now) ∧
      ∀ d ∈ new, d.turn = .sent → d.item.rest.delay = false := by
  cases h with
  | calm w? a hds => exact ⟨hundue, fun d hd ht => absurd ht (hds d hd)⟩
  | vacant => exact ⟨hundue, by simp⟩
  | hire a period => exact ⟨fun v hv => Option.some.inj hv ▸ Worker.undue_new r period now, by simp⟩
  | give u a es =>
    refine ⟨fun v hv => ?_, by simp⟩
    obtain rfl := Option.some.inj hv
    exact ⟨(hundue u rfl).ticker, (hundue u rfl).inHand⟩
  | @move u u' a m _ hmay hmoves =>
    -- what a call is for is in hand afterwards, and what is in hand is no delayed entry
    have hu' := (hundue u rfl).moves (fun x hx => ((hfiled u rfl).immediate x hx).1) hmoves
    refine ⟨fun v hv => ?_, fun d hd ht => ?_⟩
    · obtain ⟨-, hv⟩ := Option.ite_none_left_eq_some.mp hv
      exact Option.some.inj hv ▸ hu'
    · exact hu'.inHand _ (hmoves.inHand_of_sent hd ht).2
  | cue => exact ⟨hundue, by simp⟩

theorem Change.time_of_sent {stop : Bool} (h : Change stop now r w? a w?' a' new) :
    ∀ d ∈ new, d.turn = .sent → d.time = now := by
  cases h with
  | calm w? a hds => exact fun d hd ht => absurd ht (hds d hd)
  | move hmay hmoves => exact fun d hd _ => hmoves.time_deed d hd
  | vacant | hire | give | cue => simp

theorem Sequel.change (h : Sequel now w w? ds) (hchange : Change false now r w? a w?' a' new)
    (hfiled : ∀ v, w? = some v → v.Filed) : Sequel now w w?' (new ++ ds) := by
  constructor
  case time =>
    intro d hd ht
    rcases List.mem_append.mp hd with hd | hd
    · exact hchange.time_of_sent d hd ht
    · exact h.time d hd ht
  case firsts =>
    rw [Log.firsts_append, List.append_assoc]
    exact h.firsts.trans ((List.prefix_append_right_inj _).mpr (hchange.pressing_prefix hfiled))
  case undue =>
    intro hundue
    obtain ⟨hbefore, hcalls⟩ := h.undue hundue
    obtain ⟨hafter, hnew⟩ := hchange.undue hfiled hbefore
    refine ⟨hafter, fun d hd ht => ?_⟩
    rcases List.mem_append.mp hd with hd | hd
    · exact hnew d hd ht
    · exact hcalls d hd ht

/-! ### Runs -/

/-- Whether an event takes no time and leaves the shutdown signal alone. -/
def Event.isMomentary : Event π → Bool
  | .depot (.elapse _) | .depot (.signal _) => false
  | _ => true

theorem moment_step (y : Yard (Tracked π)) {e : Event π} (he : e.isMomentary = true) :
    (y.step Tracked.book e).depot.now = y.depot.now ∧
      (y.step Tracked.book e).depot.stop = y.depot.stop := by
  rcases depot_step Tracked.book y e with hsame | ⟨e', rfl, hstep⟩
  · rw [hsame]
    exact ⟨rfl, rfl⟩
  · rw [hstep]
    rcases Depot.clock_step Tracked.book y.depot e' with hsame | ⟨ms, rfl⟩ | ⟨raised, rfl⟩
    · exact hsame
    · cases he
    · cases he

section

variable (max period : Nat) (events : List (Event π))

theorem intake_run (r : Int) :
    Bay.Intake (((start max period).run Tracked.book events).depot.bay r)
      (Log.of ((start max period).run Tracked.book events).depot.log r) ∧
    ∀ w, ((start max period).run Tracked.book events).worker? r = some w → w.Filed := by
  obtain ⟨es, hes⟩ := depot_run Tracked.book max period events
  have hreach := Depot.bay_reachable Tracked.book max period es r
  rw [← hes] at hreach
  refine ⟨hreach.intake, fun w hw => ?_⟩
  obtain ⟨hworker, hopen⟩ := Pool.openWorker?_eq_some_iff.mp hw
  refine ⟨fun x hx => ⟨hreach.immediate hworker x hx, ?_⟩, hreach.intake.delayed w hworker⟩
  refine hreach.intake.outcomes x ?_
  have hbay : (((start max period).run Tracked.book events).depot.bay r).worker = some w := hworker
  simp [Bay.fresh, hbay, Worker.fresh_of_open hopen, hx]

/-- What comes of a worker at an instant. -/
theorem sequel_run {r : Int} {w : Worker (Tracked π)}
    (hstop : ((start max period).run Tracked.book events).depot.stop = false)
    (hw : ((start max period).run Tracked.book events).worker? r = some w)
    {later : List (Event π)} (hlater : ∀ e ∈ later, e.isMomentary = true) :
    ∃ ds, Log.of ((start max period).run Tracked.book (events ++ later)).depot.log r =
        ds ++ Log.of ((start max period).run Tracked.book events).depot.log r ∧
      Sequel ((start max period).run Tracked.book events).depot.now w
        (((start max period).run Tracked.book (events ++ later)).worker? r) ds := by
  -- the clock stands still and the signal is not raised in the meantime; both are needed for a step
  suffices h : ((start max period).run Tracked.book (events ++ later)).depot.now =
        ((start max period).run Tracked.book events).depot.now ∧
      ((start max period).run Tracked.book (events ++ later)).depot.stop = false ∧
      ∃ ds, Log.of ((start max period).run Tracked.book (events ++ later)).depot.log r =
          ds ++ Log.of ((start max period).run Tracked.book events).depot.log r ∧
        Sequel ((start max period).run Tracked.book events).depot.now w
          (((start max period).run Tracked.book (events ++ later)).worker? r) ds from h.2.2
  induction later using List.reverseRecOn with
  | nil =>
    rw [List.append_nil, hw]
    exact ⟨rfl, hstop, [], rfl, .refl _ w⟩
  | append_singleton later e ih =>
    obtain ⟨hbefore, he⟩ := List.forall_mem_append.mp hlater
    obtain ⟨hnow, hstop', ds, hlog, hsequel⟩ := ih hbefore
    have hmoment := moment_step ((start max period).run Tracked.book (events ++ later))
      (he e (List.mem_singleton_self e))
    obtain ⟨new, hnew, hchange⟩ :=
      change_step Tracked.book (distinct_run Tracked.book max period (events ++ later)) e r
    rw [hstop', hnow] at hchange
    rw [← List.append_assoc, run_concat]
    refine ⟨hmoment.1.trans hnow, hmoment.2.trans hstop', new ++ ds, ?_, ?_⟩
    · rw [hnew, hlog, List.append_assoc]
    · exact hsequel.change hchange (intake_run max period (events ++ later) r).2

end

/-! ### What a pass hands over -/

/-- The worker of a recipient after a pass over the pool of a depot.

* `laden`: it is the one that the recipient had, or a new one, and has all that waited.
* `ascending`: immediate entries are in the order in which they have come in. -/
structure Handed (d : Depot (Tracked π)) (r : Int) (w : Worker (Tracked π)) : Prop where
  laden : w = ((d.pool.openWorker? r).getD (.new r d.pool.period d.now)).laden
    (d.pool.waiting.entries r)
  ascending : (w.immediate.map Tracked.number).Pairwise (· < ·)
  uncalled : ∀ a ∈ Log.of d.log r, a.turn = .sent → ∀ x ∈ w.immediate, a.item.number ≠ x.number

/-- What has come of a worker by the time everything has settled.

* `idle`: without a call under way all pressing entries have been called for. -/
structure Bypass (now : Nat) (w : Worker (Tracked π)) (w? : Option (Worker (Tracked π)))
    (ds : Log (Tracked π)) : Prop extends Sequel now w w? ds where
  idle : (∀ v, w? = some v → v.inHand = none) →
    w.pressing <+: Log.firsts ds ∧ ∀ v, w? = some v → v.immediate = []

section

variable (max period : Nat) (events : List (Event π)) {r : Int} {w : Worker (Tracked π)}

theorem bypass_of_settled
    (hstop : ((start max period).run Tracked.book events).depot.stop = false)
    (hw : ((start max period).run Tracked.book events).worker? r = some w)
    {later : List (Event π)} (hlater : ∀ e ∈ later, e.isMomentary = true)
    (hsettled : ((start max period).run Tracked.book (events ++ later)).Settled Tracked.book) :
    ∃ ds, Log.of ((start max period).run Tracked.book (events ++ later)).depot.log r =
        ds ++ Log.of ((start max period).run Tracked.book events).depot.log r ∧
      Bypass ((start max period).run Tracked.book events).depot.now w
        (((start max period).run Tracked.book (events ++ later)).worker? r) ds := by
  obtain ⟨ds, hlog, hsequel⟩ := sequel_run max period events hstop hw hlater
  refine ⟨ds, hlog, hsequel, fun hidle => ?_⟩
  have himm : ∀ v, ((start max period).run Tracked.book (events ++ later)).worker? r = some v →
      v.immediate = [] := fun v hv =>
    immediate_of_settled Tracked.book max period (events ++ later) hsettled hv (hidle v hv)
  refine ⟨?_, himm⟩
  have hnone : (((start max period).run Tracked.book (events ++ later)).worker? r).elim []
      Worker.pressing = [] := by
    rcases hv : ((start max period).run Tracked.book (events ++ later)).worker? r with - | v
    · rfl
    · simp [Worker.pressing, himm v hv]
  have hfirsts := hsequel.firsts
  rwa [hnone, List.append_nil] at hfirsts

/-- A pass gives the worker of a recipient all that waits for it. -/
theorem handed_run {order : List Int} {pass : List (Event π)}
    (horder : order.Perm (Waiting.recipients
      ((start max period).run Tracked.book events).depot.pool.waiting))
    (hpass : ((start max period).run Tracked.book (events ++ pass)).depot =
      { ((start max period).run Tracked.book events).depot with
        pool := ((start max period).run Tracked.book events).depot.pool.reconcileIn order
          ((start max period).run Tracked.book events).depot.now })
    (hw : ((start max period).run Tracked.book (events ++ pass)).worker? r = some w) :
    Handed ((start max period).run Tracked.book events).depot r w := by
  -- there are never more workers than places
  have hlive : ((start max period).run Tracked.book events).depot.pool.live ≤
      ((start max period).run Tracked.book events).depot.pool.max := by
    obtain ⟨es, hes⟩ := depot_run Tracked.book max period events
    rw [hes]
    exact Depot.live_run_le Tracked.book max period es
  have hconserves := Pool.conserves_reconcileIn
    ((start max period).run Tracked.book events).depot.now
    (distinct_run Tracked.book max period events) hlive horder
  obtain ⟨hintake, -⟩ := intake_run max period (events ++ pass) r
  obtain ⟨hworker, hopen⟩ := Pool.openWorker?_eq_some_iff.mp hw
  -- what is in the immediate queue is fresh
  have hsublist : w.immediate.Sublist
      (((start max period).run Tracked.book (events ++ pass)).depot.bay r).fresh := by
    simp only [Bay.fresh, Depot.bay, hworker, Option.elim_some, Worker.fresh_of_open hopen,
      List.append_assoc]
    exact List.sublist_append_left _ _
  rw [worker?, hpass] at hw
  -- the worker is the one there was, or has just been started
  constructor
  case laden =>
    rcases hv : ((start max period).run Tracked.book events).depot.pool.openWorker? r with - | v
    · exact (hconserves.started r w hv hw).2.2
    · exact Option.some.inj (hw.symm.trans (hconserves.kept r v hv).2)
  case ascending => exact hintake.ascending.sublist (hsublist.map _)
  case uncalled =>
    have huncalled := hintake.uncalled
    rw [hpass] at huncalled
    exact fun a ha ht x hx => huncalled a ha ht x (hpass ▸ hsublist.subset hx)

end

/-- A pass during which nothing else happens, and its first steps. -/
def passage (order : List Int) (steps : Nat) : List (Event π) :=
  (.begin order :: List.replicate steps .proceed).map .depot

/-- When a pass during which nothing else happens is over, it has been a pass of the pool. -/
theorem depot_passage (y : Yard (Tracked π)) (order : List Int) (hpass : y.depot.pass = none) :
    (∃ n, (y.run Tracked.book (passage order n)).depot.pass = none) ∧
      ∀ n, (y.run Tracked.book (passage order n)).depot.pass = none →
        (y.run Tracked.book (passage order n)).depot =
          { y.depot with pool := y.depot.pool.reconcileIn order y.depot.now } := by
  have hdepot : ∀ n, (y.run Tracked.book (passage order n)).depot =
      y.depot.run Tracked.book (.begin order :: List.replicate n .proceed) := by
    refine fun n => depot_run_of_ne_move Tracked.book (fun e he r m heq => ?_) y
    rcases List.mem_cons.mp he with rfl | he
    · cases heq
    · rw [List.eq_of_mem_replicate he] at heq
      cases heq
  -- once the pass is over, further steps change nothing
  have hover : ∀ n k, (y.run Tracked.book (passage order n)).depot.pass = none →
      (y.run Tracked.book (passage order (n + k))).depot =
        (y.run Tracked.book (passage order n)).depot := by
    intro n k hnone
    rw [hdepot] at hnone ⊢
    rw [hdepot, ← List.replicate_append_replicate, ← List.cons_append, Depot.run_append]
    induction k with
    | zero => rfl
    | succ k ih =>
      rw [List.replicate_succ, Depot.run_cons]
      simpa only [Depot.step, hnone] using ih
  obtain ⟨n, hn⟩ := Depot.run_pass Tracked.book y.depot order hpass
  rw [← hdepot] at hn
  have hnone : (y.run Tracked.book (passage order n)).depot.pass = none := by rw [hn]; exact hpass
  refine ⟨⟨n, hnone⟩, fun k hk => ?_⟩
  rw [← hn]
  -- a pass that is over stays as it is, so all that are over are the same
  rcases Nat.le_total n k with hle | hle
  · obtain ⟨i, rfl⟩ := Nat.exists_eq_add_of_le hle
    exact hover n i hnone
  · obtain ⟨i, rfl⟩ := Nat.exists_eq_add_of_le hle
    exact (hover k i hk).symm

/-- **Immediate entries do not wait for a tick.**  In every state in which the shutdown signal is not
raised, a pass makes no call.  When everything has settled at the same instant, as it can, the
immediate entries that a worker had after the pass, old or new, have been called for at this instant
and in the order in which they have come in, as far as the worker has got; unless it is in the middle
of a call, it has got through all of them.  Delayed entries are called for only if a tick was due, or
one of them was being sent already. -/
theorem bypass_run (max period : Nat) (before : List (Event π)) {order : List Int}
    (hstop : ((start max period).run Tracked.book before).depot.stop = false)
    (hpass : ((start max period).run Tracked.book before).depot.pass = none)
    (horder : order.Perm (Waiting.recipients
      ((start max period).run Tracked.book before).depot.pool.waiting)) :
    let y := (start max period).run Tracked.book before
    (∃ n, (y.run Tracked.book (passage order n)).depot.pass = none) ∧
      ∀ n, (y.run Tracked.book (passage order n)).depot.pass = none →
        (y.run Tracked.book (passage order n)).depot =
            { y.depot with pool := y.depot.pool.reconcileIn order y.depot.now } ∧
          (∃ later, (∀ e ∈ later, e.isInternal = true) ∧
            (y.run Tracked.book (passage order n ++ later)).Settled Tracked.book) ∧
          ∀ r w, (y.run Tracked.book (passage order n)).worker? r = some w →
            Handed y.depot r w ∧
            ∀ later, (∀ e ∈ later, e.isMomentary = true) →
              (y.run Tracked.book (passage order n ++ later)).Settled Tracked.book →
              ∃ ds, Log.of (y.run Tracked.book (passage order n ++ later)).depot.log r =
                  ds ++ Log.of y.depot.log r ∧
                Bypass y.depot.now w
                  ((y.run Tracked.book (passage order n ++ later)).worker? r) ds := by
  intro y
  obtain ⟨hover, hpool⟩ := depot_passage y order hpass
  refine ⟨hover, fun n hn => ?_⟩
  have hdepot := hpool n hn
  refine ⟨hdepot, ?_⟩
  generalize passage order n = pass at hdepot
  -- the pass is a part of the run like any other
  simp only [y, ← run_append, ← List.append_assoc] at hdepot ⊢
  refine ⟨?_, fun r w hw => ⟨handed_run max period before horder hdepot hw, fun later hlater h => ?_⟩⟩
  · obtain ⟨later, hlater, hsettled⟩ :=
      exists_settled Tracked.book ((start max period).run Tracked.book (before ++ pass))
    exact ⟨later, hlater, by rwa [run_append]⟩
  · have hstill : ((start max period).run Tracked.book (before ++ pass)).depot.stop = false := by
      rw [hdepot]
      exact hstop
    have hbypass := bypass_of_settled max period (before ++ pass) hstill hw hlater h
    rwa [hdepot] at hbypass

/-- A delayed entry is told to wait for a minute, and its worker polls.  Then two immediate entries
come in. -/
def backoff : List (Event Nat) :=
  [.depot (.add 7 ⟨[.new 10 3], true⟩)] ++ passage [7] 4 ++
    [.cue 7 .tell, .cue 7 .poll, .cue 7 .rouse, .cue 7 .poll, .depot (.elapse 1000),
      .depot (.move 7 .tick), .depot (.move 7 (.answer (.rateLimited 60000))), .cue 7 .poll,
      .depot (.elapse 500), .depot (.add 7 ⟨[.new 11 3], false⟩),
      .depot (.add 7 ⟨[.new 12 3], false⟩)]

/-- The worker gets word of them.  The first one is told to wait, too. -/
def relief : List (Event Nat) :=
  [.cue 7 .tell, .cue 7 .rouse, .depot (.move 7 .wake),
    .depot (.move 7 (.answer (.rateLimited 300))), .depot (.move 7 .wake),
    .depot (.move 7 (.answer .delivered)), .cue 7 .poll]

theorem bypass_run_backoff :
    let y := (start 1 1000).run Tracked.book backoff
    let z := y.run Tracked.book (passage [7] 4 ++ relief)
    y.depot.stop = false ∧ y.depot.pass = none ∧
      [7].Perm (Waiting.recipients y.depot.pool.waiting) ∧
      (y.run Tracked.book (passage [7] 4)).depot.pass = none ∧ z.Settled Tracked.book ∧
      ∃ w ds, (y.run Tracked.book (passage [7] 4)).worker? 7 = some w ∧
        w.pressing.map Tracked.number = [1, 2] ∧
        Log.of z.depot.log 7 = ds ++ Log.of y.depot.log 7 ∧ w.pressing <+: Log.firsts ds ∧
        ∀ a ∈ ds, a.turn = .sent → a.time = 1500 ∧ a.item.rest.delay = false := by
  -- the backoff of the worker runs until 61000, and the pass comes at 1500
  dsimp only
  have hstop : ((start 1 1000).run Tracked.book backoff).depot.stop = false := by decide +kernel
  have hpass : ((start 1 1000).run Tracked.book backoff).depot.pass = none := by decide +kernel
  have hnow : ((start 1 1000).run Tracked.book backoff).depot.now = 1500 := by decide +kernel
  have horder : [7].Perm (Waiting.recipients
      ((start 1 1000).run Tracked.book backoff).depot.pool.waiting) := by decide +kernel
  have hover : (((start 1 1000).run Tracked.book backoff).run Tracked.book
      (passage [7] 4)).depot.pass = none := by decide +kernel
  have hsettled : (((start 1 1000).run Tracked.book backoff).run Tracked.book
      (passage [7] 4 ++ relief)).Settled Tracked.book :=
    settled_of_resting (forall_worker? (by decide +kernel))
  have hworker : ((((start 1 1000).run Tracked.book backoff).run Tracked.book
      (passage [7] 4)).worker? 7).map
        (fun w => (w.pressing.map Tracked.number, w.ticker.next, w.inHand.isNone)) =
          some ([1, 2], 61000, true) := by decide +kernel
  have hfree : ((((start 1 1000).run Tracked.book backoff).run Tracked.book
      (passage [7] 4 ++ relief)).worker? 7).all fun v => v.inHand.isNone := by decide +kernel
  obtain ⟨w, hw, hparts⟩ := Option.map_eq_some_iff.mp hworker
  obtain ⟨hnumbers, hnext, hhand⟩ : w.pressing.map Tracked.number = [1, 2] ∧
      w.ticker.next = 61000 ∧ w.inHand.isNone = true := by simpa using hparts
  obtain ⟨-, -, hall⟩ := (bypass_run 1 1000 backoff hstop hpass horder).2 4 hover
  obtain ⟨ds, hlog, hbypass⟩ := (hall 7 w hw).2 relief (by decide +kernel) hsettled
  rw [hnow] at hbypass
  -- the ticker is not due, and nothing is in hand
  have hundue : w.Undue 1500 := by
    refine ⟨by rw [hnext]; decide, fun x hx => ?_⟩
    rw [hx] at hhand
    cases hhand
  have hfirsts := hbypass.idle fun v hv => by
    rw [hv] at hfree
    exact Option.isNone_iff_eq_none.mp hfree
  exact ⟨hstop, hpass, horder, hover, hsettled, w, ds, hw, hnumbers, hlog, hfirsts.1,
    fun a ha ht => ⟨hbypass.time a ha ht, (hbypass.undue hundue).2 a ha ht⟩⟩

/-- While a call is under way that takes its time, an immediate entry comes in. -/
def busy : List (Event Nat) :=
  [.depot (.add 7 ⟨[.new 10 3], false⟩)] ++ passage [7] 4 ++
    [.depot (.move 7 .wake), .cue 7 .tell, .depot (.elapse 500),
      .depot (.add 7 ⟨[.new 11 3], false⟩)]

/-- A worker that is in the middle of a call is handed an immediate entry.  When everything has
settled at this instant, the entry is still in the queue, and no call has been made for it. -/
theorem not_bypass_of_call :
    let y := (start 1 1000).run Tracked.book busy
    let z := y.run Tracked.book (passage [7] 4 ++ [.cue 7 .tell])
    y.depot.stop = false ∧ y.depot.pass = none ∧
      [7].Perm (Waiting.recipients y.depot.pool.waiting) ∧
      (y.run Tracked.book (passage [7] 4)).depot.pass = none ∧ z.Settled Tracked.book ∧
      (z.worker? 7).map (fun w => w.immediate.map Tracked.number) = some [1] ∧
      (z.depot.log.items .sent).map Tracked.number = [0] := by
  intro y z
  exact ⟨by decide +kernel, by decide +kernel, by decide +kernel, by decide +kernel,
    settled_of_resting (forall_worker? (by decide +kernel)), by decide +kernel, by decide +kernel⟩

end Yard

/-! ### The dispatcher -/

/-- A worker at rest that has no call under way has no immediate entries. -/
theorem Line.immediate_of_step? {σ : Type} [Sender σ π] {stop : Bool} {now : Nat} {l : Line σ π}
    (h : l.step? stop now = none) (hopen : l.worker.closed = false)
    (hhand : l.worker.inHand = none) : l.worker.immediate = [] := by
  rcases himm : l.worker.immediate with - | ⟨x, rest⟩
  · rfl
  · simp [step?, hhand, hopen, himm] at h

/-- When the dispatcher comes to rest, no open worker has immediate entries but those that are in
the middle of a call. -/
theorem Dispatcher.immediate_settle {σ : Type} [Sender σ Parcel] (d : Dispatcher σ) (now : Nat) :
    ∀ w ∈ (d.settle now).pool.workers, w.closed = false → w.inHand = none → w.immediate = [] := by
  intro w hw hopen hhand
  obtain ⟨l, rfl, hrest⟩ := exists_line_of_mem_runWorkers now _ _ w hw
  exact Line.immediate_of_step? hrest hopen hhand

end Courier.Delivery

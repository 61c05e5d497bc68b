import Courier.Proofs.Delivery.Passes

/-!
Workers that poll, and how they come to look for immediate entries again.

A worker goes through its immediate queue until it is empty, and only then it polls: it looks out
for a tick, the shutdown signal, or word that entries have come in.  Word is sent after the entries
have been put in; it is kept until the worker takes it, also when the worker is busy, and there is
at most one word at a time.  A `Yard` is a depot together with what its workers attend to.  Its
events are those of the depot and the `Cue`s by which a worker comes to attend to something else;
again they come in any order, and one that cannot happen changes nothing.

What an event does to the worker of a recipient is said once (`Yard.Change`, `Yard.change_step`),
and every invariant of a worker in a yard is proved by cases on it.  The first is that no word is
lost (`Yard.heard_run`): a worker that polls while there are immediate entries for it has word of
them or will get it.  For this the order matters in which entries are put in and word is sent, and
that a worker polls only when it has found its queue empty.

A yard has settled when nothing that its workers do by themselves, without the answer to a call,
changes anything (`Yard.Settled`).  That every yard can settle is shown by a measure: `Yard.load`
counts what the worker of a recipient can still do at this instant, and a worker that does not wait
can do something that makes it less, and leaves the load of all others alone (`Yard.Progress`).  The
sum over the recipients that have a worker decreases, so the induction is on this sum.

Main statements: a yard has settled when every worker waits (`Yard.settled_iff`), and every yard can
settle (`Yard.exists_settled`).
-/

namespace Courier.Delivery

variable {ε π : Type}

/-! ### The open worker of a recipient -/

namespace Pool

theorem openWorker?_setWorker {p : Pool ε} {v w : Worker ε} (hv : p.worker? w.recipient = some v)
    (r : Int) :
    (p.setWorker w).openWorker? r =
      if r = w.recipient then (if w.closed then none else some w) else p.openWorker? r := by
  simp only [openWorker?, worker?_setWorker]
  by_cases hr : r = w.recipient
  · cases hclosed : w.closed <;> simp [hr, hv, Option.filter, hclosed]
  · simp only [hr, if_false]

theorem openWorker?_give [Deliverable ε] (p : Pool ε) (r : Int) (es : List ε) (r' : Int) :
    (p.give r es).openWorker? r' =
      if r' = r then (p.openWorker? r').map fun w => w.laden es else p.openWorker? r' := by
  -- without an open worker the entries stay in the slot, and no worker changes
  have hsame : p.openWorker? r = none → (p.requeue r es).openWorker? r' =
      if r' = r then (p.openWorker? r').map fun w => w.laden es else p.openWorker? r' := by
    intro hnone
    show p.openWorker? r' = _
    by_cases hr : r' = r
    · rw [if_pos hr, hr, hnone, Option.map_none]
    · rw [if_neg hr]
  rcases hw : p.worker? r with - | w
  · rw [show p.give r es = p.requeue r es by simp [give, hw]]
    exact hsame (by simp [openWorker?, hw])
  · -- a closed worker takes nothing
    cases hclosed : w.closed with
    | true =>
      rw [show p.give r es = p.requeue r es by simp [give, hw, Worker.put, hclosed]]
      exact hsame (by simp [openWorker?, hw, Option.filter, hclosed])
    | false =>
      have hrecipient : (w.laden es).recipient = r := by
        show w.recipient = r
        exact recipient_of_worker? hw
      rw [give_of_open hw hclosed,
        openWorker?_setWorker (v := w) (by rw [hrecipient, hw]), hrecipient]
      by_cases hr : r' = r
      · have hopen : p.openWorker? r = some w := openWorker?_eq_some_iff.mpr ⟨hw, hclosed⟩
        rw [if_pos hr, if_pos hr, hr, hopen, if_neg (by simp [Worker.laden, hclosed])]
        rfl
      · rw [if_neg hr, if_neg hr]

theorem openWorker?_engage {p q : Pool ε} {room room' now : Nat} {r : Int}
    (h : p.engage room now r = some (q, room')) (r' : Int) :
    q.openWorker? r' =
      if r' = r then some ((p.openWorker? r').getD (.new r p.period now))
      else p.openWorker? r' := by
  by_cases hr : r' = r
  · rw [if_pos hr, hr]
    rcases engage_eq_some h with ⟨rfl, w, hw, hopen⟩ | ⟨hclosed, rfl⟩
    · rw [openWorker?_eq_some_iff.mpr ⟨hw, hopen⟩, Option.getD_some]
    · rw [openWorker?_eq_none_iff.mpr hclosed, Option.getD_none, openWorker?_eq_some_iff,
        worker?_hire, worker?_dismiss, if_pos rfl, if_pos rfl]
      exact ⟨rfl, rfl⟩
  · rw [if_neg hr]
    rcases engage_eq_some h with ⟨rfl, -⟩ | ⟨-, rfl⟩
    · rfl
    · simp only [openWorker?, worker?_hire, worker?_dismiss, if_neg hr, Option.or_none]

end Pool

/-- By a tick a worker closes, or only its ticker and the delayed entries are concerned. -/
theorem Worker.closed_or_of_tick [Deliverable ε] (w : Worker ε) (now : Nat) :
    (w.tick now).closed = true ∨
      (w.tick now).immediate = w.immediate ∧ (w.tick now).ticker = w.ticker.taken now := by
  rcases hq : w.delayed with - | ⟨x, rest⟩
  · cases himm : w.immediate <;> simp [tick, hq, himm]
  · simp [tick, hq]

/-! ### Workers that listen -/

/-- What the worker of a recipient attends to.

* `polling`: whether it has found no immediate entry and waits for something to happen.
* `word`: whether there is word for it that entries have come in.
* `owed`: whether entries have been put in and the word of it is still to come. -/
structure Attention where
  polling : Bool := false
  word : Bool := false
  owed : Bool := false

/-- What makes a worker attend to something else.

* `tell`: it is sent word that entries have come in.
* `rouse`: it takes the word, and looks for immediate entries again.
* `poll`: it finds no immediate entry. -/
inductive Cue
  | tell
  | rouse
  | poll

namespace Attention

/-- Whether the worker may make a move: it takes immediate entries unless it polls, and ticks and
the shutdown signal only when it polls. -/
def may (a : Attention) : Move → Bool
  | .wake => !a.polling
  | .answer _ => true
  | .tick | .halt => a.polling

/-- What a worker attends to after a cue, if it can get it. -/
def cue? (a : Attention) (w : Worker ε) : Cue → Option Attention
  | .tell => if a.owed then some { a with owed := false, word := true } else none
  | .rouse => if a.polling && a.word then some { a with polling := false, word := false } else none
  | .poll =>
    if w.isFree && w.immediate.isEmpty && !a.polling then some { a with polling := true } else none

end Attention

/-- A depot, with what the workers attend to. -/
structure Yard (ε : Type) where
  depot : Depot ε
  attention : Int → Attention := fun _ => {}

/-- Something that happens in a yard. -/
inductive Yard.Event (π : Type)
  | depot (e : Delivery.Event π)
  | cue (recipient : Int) (c : Cue)

/-- Whether a step of a pass gives entries to the worker of a recipient. -/
def Pass.gives (p : Pass ε) (recipient : Int) : Bool :=
  match p.handoff with
  | some h => h.engaged && h.recipient = recipient
  | none => false

namespace Yard

/-- A yard without entries and workers. -/
def start (max period : Nat) : Yard ε := { depot := .start max period }

/-- The open worker of a recipient. -/
def worker? (y : Yard ε) (r : Int) : Option (Worker ε) := y.depot.pool.openWorker? r

/-- The worker of a recipient comes to attend to something else. -/
def attend (y : Yard ε) (r : Int) (a : Attention) : Yard ε :=
  { y with attention := fun r' => if r' = r then a else y.attention r' }

/-- What the worker of a recipient attends to after a step of a pass: a new worker begins afresh,
and one that is given entries is to get word of it. -/
def notified (y : Yard ε) (p : Pass ε) (r : Int) : Attention :=
  match y.worker? r with
  | none => {}
  | some _ => { y.attention r with owed := (y.attention r).owed || p.gives r }

variable [Deliverable ε] (book : Nat → Int → Entry π → ε)

/-- The yard after an event. -/
def step (y : Yard ε) : Event π → Yard ε
  | .depot (.move r m) =>
    match (y.worker? r).bind fun w => w.move? y.depot.stop y.depot.now m with
    | none => y
    | some _ =>
      if (y.attention r).may m then
        { y.attend r { y.attention r with polling := false } with
          depot := y.depot.step book (.move r m) }
      else y
  | .depot .proceed =>
    match y.depot.pass with
    | none => y
    | some p => ⟨y.depot.step book .proceed, y.notified p⟩
  | .depot e => { y with depot := y.depot.step book e }
  | .cue r c =>
    match (y.worker? r).bind fun w => (y.attention r).cue? w c with
    | none => y
    | some a => y.attend r a

/-- The yard after some events. -/
def run (y : Yard ε) (events : List (Event π)) : Yard ε := events.foldl (step book) y

@[simp] theorem run_nil (y : Yard ε) : y.run book ([] : List (Event π)) = y := rfl

@[simp] theorem run_cons (y : Yard ε) (e : Event π) (events : List (Event π)) :
    y.run book (e :: events) = (y.step book e).run book events := rfl

theorem run_append (y : Yard ε) (events later : List (Event π)) :
    y.run book (events ++ later) = (y.run book events).run book later :=
  List.foldl_append

theorem run_concat (y : Yard ε) (events : List (Event π)) (e : Event π) :
    y.run book (events ++ [e]) = (y.run book events).step book e := by
  rw [run_append, run_cons, run_nil]

/-- What happens to the depot in a yard is a run of its own. -/
theorem depot_step (y : Yard ε) (e : Event π) :
    -- the only events that can be refused are moves, and a pass that goes on when there is none
    (y.step book e).depot = y.depot ∨
      ∃ e', e = .depot e' ∧ (y.step book e).depot = y.depot.step book e' := by
  cases e with
  | cue r c =>
    left
    simp only [step]
    split <;> rfl
  | depot e =>
    cases e with
    | move r m =>
      simp only [step]
      split
      · exact .inl rfl
      · split
        · exact .inr ⟨_, rfl, rfl⟩
        · exact .inl rfl
    | proceed =>
      simp only [step]
      split
      · exact .inl rfl
      · exact .inr ⟨_, rfl, rfl⟩
    | _ => exact .inr ⟨_, rfl, rfl⟩

theorem depot_step_of_ne_move (y : Yard ε) {e : Delivery.Event π} (he : ∀ r m, e ≠ .move r m) :
    (y.step book (.depot e)).depot = y.depot.step book e := by
  cases e with
  | move r m => exact absurd rfl (he r m)
  | proceed =>
    rcases hp : y.depot.pass with - | p <;> simp [step, Depot.step, hp]
  | _ => rfl

theorem depot_run_of_ne_move {es : List (Delivery.Event π)} (h : ∀ e ∈ es, ∀ r m, e ≠ .move r m)
    (y : Yard ε) : (y.run book (es.map .depot)).depot = y.depot.run book es := by
  induction es generalizing y with
  | nil => rfl
  | cons e es ih =>
    obtain ⟨he, hes⟩ := List.forall_mem_cons.mp h
    rw [List.map_cons, run_cons, ih hes, depot_step_of_ne_move book y he, Depot.run_cons]

theorem depot_run (max period : Nat) (events : List (Event π)) :
    ∃ es, ((start max period : Yard ε).run book events).depot =
      (Depot.start max period).run book es := by
  induction events using List.reverseRecOn with
  | nil => exact ⟨[], rfl⟩
  | append_singleton events e ih =>
    obtain ⟨es, hes⟩ := ih
    rw [run_concat]
    rcases depot_step book ((start max period : Yard ε).run book events) e with
      hsame | ⟨e', -, hstep⟩
    · exact ⟨es, hsame.trans hes⟩
    · exact ⟨es ++ [e'], by rw [hstep, hes, Depot.run_concat]⟩

/-! ### What happens to a worker -/

omit [Deliverable ε] in
@[simp] theorem attention_attend (y : Yard ε) (r : Int) (a : Attention) (r' : Int) :
    (y.attend r a).attention r' = if r' = r then a else y.attention r' := rfl

/-- What can happen to the open worker of a recipient and to its attention, with the deeds that come
of it.

* `calm`: nothing happens to the worker, and no call is made.
* `vacant`: there is no worker. -/
inductive Change (stop : Bool) (now : Nat) (r : Int) :
    Option (Worker ε) → Attention → Option (Worker ε) → Attention → Log ε → Prop
  | calm (w? : Option (Worker ε)) (a : Attention) {ds : Log ε} (hds : ∀ d ∈ ds, d.turn ≠ .sent) :
      Change stop now r w? a w? a ds
  | vacant (a a' : Attention) : Change stop now r none a none a' []
  | hire (a : Attention) (period : Nat) :
      Change stop now r none a (some (.new r period now)) {} []
  | give (w : Worker ε) (a : Attention) (es : List ε) :
      Change stop now r (some w) a (some (w.laden es)) { a with owed := true } []
  | move {w w' : Worker ε} {a : Attention} {m : Move} {ds : Log ε} (hmay : a.may m = true)
      (hmoves : w.Moves stop now m w' ds) :
      Change stop now r (some w) a (if w'.closed then none else some w')
        { a with polling := false } ds
  | cue {w : Worker ε} {a a' : Attention} {c : Cue} (hcue : a.cue? w c = some a') :
      Change stop now r (some w) a (some w) a' []

/-- Nothing happens at all. -/
theorem Change.same {stop : Bool} {now : Nat} {r : Int} (w? : Option (Worker ε)) (a : Attention) :
    Change stop now r w? a w? a [] :=
  .calm w? a fun _ hd => absurd hd List.not_mem_nil

/-- A pass goes on. -/
theorem change_proceed (y : Yard ε) (p : Pass ε) (r : Int) :
    Change y.depot.stop y.depot.now r (y.worker? r) (y.attention r)
      ((y.depot.proceed p).pool.openWorker? r) (y.notified p r) [] := by
  -- all steps of a pass but two leave the open worker alone
  have same : ∀ q : Pool ε, q.openWorker? r = y.worker? r → p.gives r = false →
      Change y.depot.stop y.depot.now r (y.worker? r) (y.attention r) (q.openWorker? r)
        (y.notified p r) [] := by
    intro q hq hgives
    rw [hq, notified]
    rcases hw : y.worker? r with - | w
    · exact .vacant _ _
    · rw [hgives, Bool.or_false]
      exact .same _ _
  unfold Depot.proceed
  rcases hh : p.handoff with - | h
  · have hgives : p.gives r = false := by simp [Pass.gives, hh]
    rcases p.left with - | ⟨r', left⟩ <;> exact same _ rfl hgives
  · cases hengaged : h.engaged with
    | true =>
      -- entries are given to the worker of their recipient
      simp only [hengaged, if_true]
      by_cases hr : r = h.recipient
      · have hgives : p.gives r = true := by simp [Pass.gives, hh, hengaged, hr]
        rw [Pool.openWorker?_give, if_pos hr, notified, hgives, Bool.or_true]
        change Change _ _ r (y.worker? r) _ ((y.worker? r).map _) _ _
        rcases y.worker? r with - | w
        · exact .vacant _ _
        · exact .give w _ _
      · refine same _ (by rw [Pool.openWorker?_give, if_neg hr]; rfl) ?_
        simp [Pass.gives, hh, Ne.symm hr]
    | false =>
      have hgives : p.gives r = false := by simp [Pass.gives, hh, hengaged]
      simp only [hengaged, Bool.false_eq_true, if_false]
      -- or a worker is found for the recipient, hired if there is none
      rcases hengage : y.depot.pool.engage p.room y.depot.now h.recipient with - | ⟨q, room⟩
      · exact same _ rfl hgives
      · by_cases hr : r = h.recipient
        · show Change _ _ r (y.worker? r) _ (q.openWorker? r) _ _
          rw [Pool.openWorker?_engage hengage, if_pos hr, notified, hgives, ← hr]
          change Change _ _ r (y.worker? r) _ (some ((y.worker? r).getD _)) _ _
          rcases y.worker? r with - | w
          · exact .hire _ _
          · rw [Bool.or_false]
            exact .same _ _
        · exact same _ (by rw [Pool.openWorker?_engage hengage, if_neg hr]; rfl) hgives

/-- A worker makes a move. -/
theorem change_move {y : Yard ε} {r' : Int} {m : Move} {w w' : Worker ε}
    (hw : y.worker? r' = some w) (hmove : w.move? y.depot.stop y.depot.now m = some w')
    (hmay : (y.attention r').may m = true) (r : Int) :
    ∃ ds, Log.of (y.depot.step book (.move r' m)).log r = ds ++ Log.of y.depot.log r ∧
      Change y.depot.stop y.depot.now r (y.worker? r) (y.attention r)
        ((y.depot.step book (.move r' m)).pool.openWorker? r)
        ((y.attend r' { y.attention r' with polling := false }).attention r) ds := by
  obtain ⟨hworker, -⟩ := Pool.openWorker?_eq_some_iff.mp hw
  have hmoves := Worker.moves_of_move? hmove
  have hrecipient : w.recipient = r' := Pool.recipient_of_worker? hworker
  have hrecipient' : w'.recipient = r' := hmoves.recipient_eq.trans hrecipient
  have hstep : y.depot.step book (.move r' m) = { y.depot with
      pool := y.depot.pool.setWorker w', log := w.deeds y.depot.now m ++ y.depot.log } := by
    simp [Depot.step, hworker, hmove]
  rw [hstep]
  -- the move is seen by the recipient of the worker and by nobody else
  simp only [attention_attend]
  rw [Pool.openWorker?_setWorker (v := w) (by rw [hrecipient', hworker]), hrecipient',
    Log.of_append]
  by_cases hr : r = r'
  · rw [if_pos hr, if_pos hr, hr, hw,
      Log.of_eq_self fun a ha => (hmoves.recipient_deed a ha).trans hrecipient]
    exact ⟨_, rfl, .move hmay hmoves⟩
  · rw [if_neg hr, if_neg hr,
      Log.of_eq_nil (fun a ha => (hmoves.recipient_deed a ha).trans hrecipient) hr]
    exact ⟨[], rfl, .same _ _⟩

/-- Whatever happens in a yard is, for every recipient, one of the changes. -/
theorem change_step {y : Yard ε} (h : y.depot.pool.Distinct) (e : Event π) (r : Int) :
    ∃ ds, Log.of (y.step book e).depot.log r = ds ++ Log.of y.depot.log r ∧
      Change y.depot.stop y.depot.now r (y.worker? r) (y.attention r) ((y.step book e).worker? r)
        ((y.step book e).attention r) ds := by
  have same : ∃ ds, Log.of y.depot.log r = ds ++ Log.of y.depot.log r ∧
      Change y.depot.stop y.depot.now r (y.worker? r) (y.attention r) (y.worker? r)
        (y.attention r) ds := ⟨[], rfl, .same _ _⟩
  cases e with
  | cue r' c =>
    rcases hcue : (y.worker? r').bind fun w => (y.attention r').cue? w c with - | a
    · simpa only [step, hcue] using same
    · obtain ⟨w, hw, ha⟩ := Option.bind_eq_some_iff.mp hcue
      refine ⟨[], by simp only [step, hcue]; rfl, ?_⟩
      simp only [step, hcue, attention_attend]
      show Change _ _ r (y.worker? r) _ (y.worker? r) _ _
      by_cases hr : r = r'
      · rw [if_pos hr, hr, hw]
        exact .cue ha
      · rw [if_neg hr]
        exact .same _ _
  | depot e =>
    cases e with
    | add r' x =>
      by_cases hr : r = r'
      · exact ⟨[⟨.accepted, y.depot.now, r', book y.depot.count r' x⟩],
          by simp [step, Depot.step, Log.of, hr], .calm _ _ (by simp)⟩
      · exact ⟨[], by simp [step, Depot.step, Log.of, Ne.symm hr], .same _ _⟩
    | begin order =>
      -- only closed workers are swept out
      refine ⟨[], ?_, ?_⟩
      · simp only [step, Depot.step]
        split <;> rfl
      · have hworker : (y.step book (.depot (.begin order))).worker? r = y.worker? r := by
          simp only [step, Depot.step, worker?]
          split
          · rfl
          · show y.depot.pool.sweep.openWorker? r = y.depot.pool.openWorker? r
            have hopen : y.depot.pool.sweep.AllOpen :=
              fun w hw => by simpa using (List.mem_filter.mp hw).2
            rw [hopen.openWorker?_eq, h.worker?_sweep]
            rfl
        rw [hworker]
        exact .same _ _
    | proceed =>
      rcases hp : y.depot.pass with - | p
      · simpa only [step, hp] using same
      · refine ⟨[], ?_, ?_⟩
        · obtain ⟨pool, pass, hframe⟩ := y.depot.proceed_frame p
          simp only [step, hp, Depot.step, hframe]
          rfl
        · have hchange := change_proceed y p r
          simpa only [step, hp, worker?, Depot.step] using hchange
    | move r' m =>
      rcases hmove : (y.worker? r').bind fun w => w.move? y.depot.stop y.depot.now m with - | w'
      · simpa only [step, hmove] using same
      · obtain ⟨w, hw, hw'⟩ := Option.bind_eq_some_iff.mp hmove
        cases hmay : (y.attention r').may m with
        | false => simpa only [step, hmove, hmay, Bool.false_eq_true, if_false] using same
        | true =>
          simp only [step, hmove, hmay, if_true]
          exact change_move book hw hw' hmay r
    | clear =>
      cases hstop : y.depot.stop with
      | false => simpa [step, Depot.step, hstop] using same
      | true =>
        simp only [step, Depot.step, hstop, if_true]
        refine ⟨_, Log.of_append .., .calm _ _ fun a ha => ?_⟩
        obtain ⟨slot, -, hslot⟩ := List.mem_flatMap.mp (List.mem_filter.mp ha).1
        obtain ⟨x, -, rfl⟩ := List.mem_map.mp hslot
        simp
    | signal raised => exact ⟨[], rfl, .same _ _⟩
    | elapse ms => exact ⟨[], rfl, .same _ _⟩

/-! ### What changes keep -/

section

variable {stop : Bool} {now : Nat} {r : Int}

/-- A worker that polls has no call under way, and if there are immediate entries for it, it has
word of them or will get it. -/
def Heard (w? : Option (Worker ε)) (a : Attention) : Prop :=
  ∀ w, w? = some w → a.polling = true →
    w.inHand = none ∧ (w.immediate = [] ∨ a.word = true ∨ a.owed = true)

/-- No word is lost. -/
-- a worker comes to poll by its own cue only, and then it has found the queue empty
theorem Change.heard {w? w?' : Option (Worker ε)} {a a' : Attention} {ds : Log ε}
    (h : Change stop now r w? a w?' a' ds) (hheard : Heard w? a) : Heard w?' a' := by
  intro w hw hpolling
  cases h with
  | calm => exact hheard w hw hpolling
  | vacant => cases hw
  | hire => cases hpolling
  | give v _ es =>
    obtain rfl := Option.some.inj hw
    exact ⟨(hheard v rfl hpolling).1, .inr (.inr rfl)⟩
  | move => cases hpolling
  | @cue v _ _ c hcue =>
    obtain rfl := Option.some.inj hw
    cases c with
    | tell =>
      obtain ⟨-, ha'⟩ := Option.ite_none_right_eq_some.mp hcue
      obtain rfl := Option.some.inj ha'
      exact ⟨(hheard v rfl hpolling).1, .inr (.inl rfl)⟩
    | rouse =>
      obtain ⟨-, ha'⟩ := Option.ite_none_right_eq_some.mp hcue
      obtain rfl := Option.some.inj ha'
      cases hpolling
    | poll =>
      obtain ⟨hfound, ha'⟩ := Option.ite_none_right_eq_some.mp hcue
      obtain rfl := Option.some.inj ha'
      simp only [Bool.and_eq_true, List.isEmpty_iff, Worker.isFree_iff] at hfound
      exact ⟨hfound.1.1.2, .inl hfound.1.2⟩

end

/-! ### Settling -/

section

/-- Whether an event is one that the workers bring about by themselves, without the answer to a
call. -/
def Event.isInternal : Event π → Bool
  | .cue _ _ => true
  | .depot (.move _ (.answer _)) => false
  | .depot (.move _ _) => true
  | _ => false

/-- Whether nothing that the workers do by themselves changes anything. -/
def Settled (y : Yard ε) : Prop := ∀ e : Event π, e.isInternal = true → y.step book e = y

/-- Whether a worker waits: for the answer to its call, or for the next tick and for word. -/
structure Resting (stop : Bool) (now : Nat) (w : Worker ε) (a : Attention) : Prop where
  owed : a.owed = false
  word : a.polling = true → a.word = false
  polling : w.inHand = none → a.polling = true ∧ now < w.ticker.next ∧ stop = false

instance (stop : Bool) (now : Nat) (w : Worker ε) (a : Attention) :
    Decidable (Resting stop now w a) :=
  decidable_of_iff (a.owed = false ∧ (a.polling = true → a.word = false) ∧
      (w.inHand = none → a.polling = true ∧ now < w.ticker.next ∧ stop = false))
    ⟨fun h => ⟨h.1, h.2.1, h.2.2⟩, fun h => ⟨h.owed, h.word, h.polling⟩⟩

variable {book} {y : Yard ε} {r : Int} {w : Worker ε}

omit [Deliverable ε] in
/-- What holds of the open workers of the pool holds of the worker of every recipient. -/
theorem forall_worker? {P : Int → Worker ε → Prop}
    (h : ∀ w ∈ y.depot.pool.workers, w.closed = false → P w.recipient w) :
    ∀ r w, y.worker? r = some w → P r w := by
  intro r w hw
  obtain ⟨hworker, hopen⟩ := Pool.openWorker?_eq_some_iff.mp hw
  exact Pool.recipient_of_worker? hworker ▸ h w (List.mem_of_find?_eq_some hworker) hopen

/-- A yard in which every worker waits has settled. -/
theorem settled_of_resting (h : ∀ r w, y.worker? r = some w →
    Resting y.depot.stop y.depot.now w (y.attention r)) : y.Settled book := by
  -- no cue is open to a worker that waits, and no move
  intro e he
  cases e with
  | cue r c =>
    rcases hw : y.worker? r with - | w
    · simp [step, hw]
    · have hrest := h r w hw
      have hnone : (y.attention r).cue? w c = none := by
        cases c with
        | tell => simp [Attention.cue?, hrest.owed]
        | rouse => simpa [Attention.cue?] using hrest.word
        | poll =>
          rw [Attention.cue?, if_neg]
          simp only [Bool.and_eq_true, Worker.isFree_iff, Bool.not_eq_true']
          rintro ⟨⟨⟨-, hhand⟩, -⟩, hpolling⟩
          rw [(hrest.polling hhand).1] at hpolling
          cases hpolling
      simp [step, hw, hnone]
  | depot e =>
    cases e with
    | move r m =>
      rcases hw : y.worker? r with - | w
      · simp [step, hw]
      · have hrest := h r w hw
        -- a worker that is free polls, and no tick is due
        have hnone : w.move? y.depot.stop y.depot.now m = none ∨ (y.attention r).may m = false := by
          by_cases hhand : w.inHand = none
          · obtain ⟨hpolling, hnext, hstop⟩ := hrest.polling hhand
            cases m with
            | wake => exact .inr (by simp [Attention.may, hpolling])
            | tick => exact .inl (by simp [Worker.move?, Time.Ticker.isDue, Nat.not_le.mpr hnext])
            | answer o => cases he
            | halt => exact .inl (by simp [Worker.move?, hstop])
          · have hfree : w.isFree = false := by
              rcases hh : w.inHand with - | x
              · exact absurd hh hhand
              · simp [Worker.isFree, hh]
            cases m with
            | answer o => cases he
            | wake | tick | halt => exact .inl (by simp [Worker.move?, hfree])
        rcases hnone with hnone | hmay
        · simp [step, hw, hnone]
        · simp only [step, hw, hmay, Bool.false_eq_true, if_false]
          split <;> rfl
    | _ => cases he

/-- How much a worker still has to do by itself at an instant. -/
def todo (now : Nat) (w : Worker ε) (a : Attention) : Nat :=
  2 * (w.immediate.length + (now + 1 - w.ticker.next) + a.word.toNat + 2 * a.owed.toNat) +
    (!a.polling).toNat + 1

/-- How much the worker of a recipient still has to do. -/
def load (y : Yard ε) (r : Int) : Nat :=
  (y.worker? r).elim 0 fun w => todo y.depot.now w (y.attention r)

theorem load_cue (hw : y.worker? r = some w) {c : Cue} {a : Attention}
    (hcue : (y.attention r).cue? w c = some a) (r' : Int) :
    (y.step book (.cue r c)).load r' = if r' = r then todo y.depot.now w a else y.load r' := by
  have hstep : y.step book (.cue r c) = y.attend r a := by simp [step, hw, hcue]
  rw [hstep]
  show (y.worker? r').elim 0 _ = _
  by_cases hr : r' = r
  · rw [if_pos hr, hr, hw, Option.elim_some, attention_attend, if_pos rfl]
    rfl
  · simp only [attention_attend, if_neg hr]
    rfl

theorem step_move (hw : y.worker? r = some w) {m : Move} {w' : Worker ε}
    (hmove : w.move? y.depot.stop y.depot.now m = some w') (hmay : (y.attention r).may m = true) :
    y.step book (.depot (.move r m)) =
      { y.attend r { y.attention r with polling := false } with
        depot := { y.depot with
          pool := y.depot.pool.setWorker w', log := w.deeds y.depot.now m ++ y.depot.log } } := by
  obtain ⟨hworker, -⟩ := Pool.openWorker?_eq_some_iff.mp hw
  simp [step, hw, hmove, hmay, Depot.step, hworker]

theorem load_move (hw : y.worker? r = some w) {m : Move} {w' : Worker ε}
    (hmove : w.move? y.depot.stop y.depot.now m = some w') (hmay : (y.attention r).may m = true)
    (r' : Int) :
    (y.step book (.depot (.move r m))).load r' =
      if r' = r then
        if w'.closed then 0 else todo y.depot.now w' { y.attention r with polling := false }
      else y.load r' := by
  obtain ⟨hworker, -⟩ := Pool.openWorker?_eq_some_iff.mp hw
  have hrecipient : w'.recipient = r :=
    (Worker.moves_of_move? hmove).recipient_eq.trans (Pool.recipient_of_worker? hworker)
  rw [step_move hw hmove hmay]
  show ((y.depot.pool.setWorker w').openWorker? r').elim 0 _ = _
  rw [Pool.openWorker?_setWorker (v := w) (by rw [hrecipient, hworker]), hrecipient]
  by_cases hr : r' = r
  · simp only [hr, if_true, attention_attend]
    cases w'.closed <;> rfl
  · simp only [hr, if_false, attention_attend]
    rfl

variable (book) in
/-- Something happens by itself that leaves a worker less to do, and the others as much. -/
def Progress (y : Yard ε) (r : Int) : Prop :=
  ∃ e : Event π, e.isInternal = true ∧ (y.step book e).load r < y.load r ∧
    ∀ r' ≠ r, (y.step book e).load r' = y.load r'

omit [Deliverable ε] in
theorem load_eq (hw : y.worker? r = some w) :
    y.load r = todo y.depot.now w (y.attention r) := by
  rw [load, hw, Option.elim_some]

theorem progress_of_cue (hw : y.worker? r = some w) {c : Cue} {a : Attention}
    (hcue : (y.attention r).cue? w c = some a)
    (hlt : todo y.depot.now w a < todo y.depot.now w (y.attention r)) : y.Progress book r := by
  refine ⟨.cue r c, rfl, ?_, fun r' hr => ?_⟩
  · rw [load_cue hw hcue, if_pos rfl, load_eq hw]
    exact hlt
  · rw [load_cue hw hcue, if_neg hr]

theorem progress_of_move (hw : y.worker? r = some w) {m : Move} (w' : Worker ε)
    (hm : (Event.depot (.move r m) : Event π).isInternal = true)
    (hmove : w.move? y.depot.stop y.depot.now m = some w') (hmay : (y.attention r).may m = true)
    (hlt : w'.closed = true ∨
      todo y.depot.now w' { y.attention r with polling := false } <
        todo y.depot.now w (y.attention r)) : y.Progress book r := by
  refine ⟨.depot (.move r m), hm, ?_, fun r' hr => ?_⟩
  · rw [load_move hw hmove hmay, if_pos rfl, load_eq hw]
    rcases hlt with hclosed | hlt
    · rw [if_pos hclosed]
      exact Nat.succ_pos _
    · split
      · exact Nat.succ_pos _
      · exact hlt
  · rw [load_move hw hmove hmay, if_neg hr]

/-- A worker that has nothing to do by itself waits. -/
theorem resting_of_not_progress (hw : y.worker? r = some w) (h : ¬y.Progress book r) :
    Resting y.depot.stop y.depot.now w (y.attention r) := by
  -- otherwise there is a cue or a move by which the worker has less to do
  obtain ⟨-, hopen⟩ := Pool.openWorker?_eq_some_iff.mp hw
  constructor
  case owed =>
    by_contra howed
    have howed : (y.attention r).owed = true := by simpa using howed
    refine h (progress_of_cue hw (c := .tell) (if_pos howed) ?_)
    simp only [todo, howed, Bool.toNat_true, Bool.toNat_false]
    omega
  case word =>
    intro hpolling
    by_contra hword
    have hword : (y.attention r).word = true := by simpa using hword
    refine h (progress_of_cue hw (c := .rouse) (if_pos (by rw [hpolling, hword]; rfl)) ?_)
    simp only [todo, hpolling, hword, Bool.not_true, Bool.not_false, Bool.toNat_true,
      Bool.toNat_false]
    omega
  case polling =>
    intro hhand
    have hfree : w.isFree = true := Worker.isFree_iff.mpr ⟨hopen, hhand⟩
    have hpolling : (y.attention r).polling = true := by
      by_contra hpolling
      have hpolling : (y.attention r).polling = false := by simpa using hpolling
      -- it does not poll: either it can begin to, or there is an entry to take up
      rcases himm : w.immediate with - | ⟨x, rest⟩
      · refine h (progress_of_cue hw (c := .poll)
          (if_pos (by rw [hfree, himm, hpolling]; rfl)) ?_)
        simp only [todo, hpolling, Bool.not_true, Bool.not_false, Bool.toNat_true,
          Bool.toNat_false]
        omega
      · refine h (progress_of_move hw (m := .wake) w.takeImmediate rfl ?_ ?_ (.inr ?_))
        · rw [Worker.move?, if_pos (by rw [hfree, himm]; rfl)]
        · rw [Attention.may, hpolling]
          rfl
        · simp only [todo, Worker.takeImmediate, himm, hpolling, Worker.immediate_hold,
            Worker.ticker_hold, List.length_cons]
          omega
    -- a tick that is due would be taken
    have hticker : y.depot.now < w.ticker.next := by
      by_contra hdue
      have hdue : w.ticker.next ≤ y.depot.now := Nat.not_lt.mp hdue
      have htaken := w.ticker.next_lt_next_taken y.depot.now
      refine h (progress_of_move hw (m := .tick) (w.tick y.depot.now) rfl ?_ hpolling ?_)
      · rw [Worker.move?, if_pos (by simp [hfree, Time.Ticker.isDue, hdue])]
      · refine (w.closed_or_of_tick y.depot.now).imp_right fun hopened => ?_
        obtain ⟨himm, hnext⟩ := hopened
        simp only [todo, himm, hnext, hpolling, Bool.not_true, Bool.not_false, Bool.toNat_true,
          Bool.toNat_false]
        omega
    refine ⟨hpolling, hticker, ?_⟩
    by_contra hstop
    have hstop : y.depot.stop = true := by simpa using hstop
    refine h (progress_of_move hw (m := .halt) w.halt rfl ?_ hpolling (.inl rfl))
    rw [Worker.move?, if_pos (by rw [hfree, hstop]; rfl)]

/-- In a yard that has settled, every worker waits. -/
theorem Settled.resting (h : y.Settled book) (hw : y.worker? r = some w) :
    Resting y.depot.stop y.depot.now w (y.attention r) := by
  have hstuck : ¬y.Progress book r := by
    rintro ⟨e, he, hlt, -⟩
    rw [h e he] at hlt
    exact Nat.lt_irrefl _ hlt
  exact resting_of_not_progress hw hstuck

/-- A yard has settled when every worker waits. -/
theorem settled_iff : y.Settled book ↔
    ∀ r w, y.worker? r = some w → Resting y.depot.stop y.depot.now w (y.attention r) :=
  ⟨fun h _ _ hw => h.resting hw, settled_of_resting⟩

end

end Yard

/-- The sum over some recipients. -/
def total (f : Int → Nat) : List Int → Nat
  | [] => 0
  | r :: rs => f r + total f rs

theorem total_le {f g : Int → Nat} (h : ∀ r, f r ≤ g r) (rs : List Int) :
    total f rs ≤ total g rs := by
  induction rs with
  | nil => exact Nat.le_refl 0
  | cons r rs ih => exact Nat.add_le_add (h r) ih

theorem total_lt {f g : Int → Nat} (h : ∀ r, f r ≤ g r) {r : Int} (hlt : f r < g r)
    {rs : List Int} (hr : r ∈ rs) : total f rs < total g rs := by
  induction rs with
  | nil => exact absurd hr List.not_mem_nil
  | cons r' rs ih =>
    rcases List.mem_cons.mp hr with rfl | hr
    · exact Nat.add_lt_add_of_lt_of_le hlt (total_le h rs)
    · exact Nat.add_lt_add_of_le_of_lt (h r') (ih hr)

namespace Yard

variable [Deliverable ε] (book : Nat → Int → Entry π → ε)

/-- Every yard can settle without the answer to a call. -/
theorem exists_settled (y : Yard ε) :
    ∃ later : List (Event π), (∀ e ∈ later, e.isInternal = true) ∧
      (y.run book later).Settled book := by
  -- only the recipients that have a worker at first can have one that has something to do
  have hload : ∀ r, y.load r ≠ 0 → r ∈ y.depot.pool.workers.map Worker.recipient := by
    intro r hr
    rcases hw : y.worker? r with - | w
    · exact absurd (by simp [load, hw]) hr
    · obtain ⟨hworker, -⟩ := Pool.openWorker?_eq_some_iff.mp hw
      exact Pool.recipient_of_worker? hworker ▸
        List.mem_map_of_mem (List.mem_of_find?_eq_some hworker)
  generalize y.depot.pool.workers.map Worker.recipient = rs at hload
  -- by strong induction on the sum of what is left to do
  induction htotal : total y.load rs using Nat.strongRecOn generalizing y with
  | ind n ih =>
    by_cases hrest : ∀ r w, y.worker? r = some w →
        Resting y.depot.stop y.depot.now w (y.attention r)
    · exact ⟨[], by simp, settled_of_resting hrest⟩
    · obtain ⟨r, w, hw, hnot⟩ : ∃ r w, y.worker? r = some w ∧
          ¬Resting y.depot.stop y.depot.now w (y.attention r) := by
        by_contra hnone
        exact hrest fun r w hw => by_contra fun hnot => hnone ⟨r, w, hw, hnot⟩
      obtain ⟨e, he, hlt, hsame⟩ : y.Progress book r :=
        by_contra fun hstuck => hnot (resting_of_not_progress hw hstuck)
      have hle : ∀ r', (y.step book e).load r' ≤ y.load r' := by
        intro r'
        by_cases hr : r' = r
        · exact hr ▸ Nat.le_of_lt hlt
        · exact Nat.le_of_eq (hsame r' hr)
      obtain ⟨later, hlater, hsettled⟩ := ih _
        (htotal ▸ total_lt hle hlt (hload r (Nat.ne_of_gt (Nat.lt_of_le_of_lt (Nat.zero_le _) hlt))))
        (y.step book e)
        (fun r' hr' => hload r' fun hzero => hr' (Nat.le_zero.mp (hzero ▸ hle r'))) rfl
      exact ⟨e :: later, List.forall_mem_cons.mpr ⟨he, hlater⟩, hsettled⟩

/-! ### Runs -/

section

variable (max period : Nat) (events : List (Event π))

theorem distinct_run : ((start max period).run book events).depot.pool.Distinct := by
  obtain ⟨es, hes⟩ := depot_run book max period events
  rw [hes]
  exact Depot.distinct_run book max period es

/-- **No word is lost**, in whatever order things happen. -/
theorem heard_run (r : Int) :
    Heard (((start max period).run book events).worker? r)
      (((start max period).run book events).attention r) := by
  induction events using List.reverseRecOn with
  | nil => exact fun w hw => nomatch hw
  | append_singleton events e ih =>
    rw [run_concat]
    obtain ⟨_, -, hchange⟩ := change_step book (distinct_run book max period events) e r
    exact hchange.heard ih

/-- In a yard that has settled, a worker without a call under way has no immediate entries. -/
theorem immediate_of_settled {r : Int} {w : Worker ε}
    (h : ((start max period).run book events).Settled book)
    (hw : ((start max period).run book events).worker? r = some w) (hhand : w.inHand = none) :
    w.immediate = [] := by
  have hrest := h.resting hw
  obtain ⟨hpolling, -, -⟩ := hrest.polling hhand
  rcases (heard_run book max period events r w hw hpolling).2 with himm | hword | howed
  · exact himm
  · rw [hrest.word hpolling] at hword
    cases hword
  · rw [hrest.owed] at howed
    cases howed

end

end Yard

end Courier.Delivery

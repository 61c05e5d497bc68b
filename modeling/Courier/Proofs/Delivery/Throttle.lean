import Courier.Proofs.Delivery.DelayedOrder

/-!
How far apart delayed entries go out.

A tick serves one delayed entry, and the next tick comes a period later.  But when the service asks
to wait, the ticker is set anew, perhaps to a time that is less than a period away.  Delayed entries
keep their distance all the same: whenever the ticker is set, an entry has just been put in front of
the delayed queue, and it is this entry on which the early tick is spent.

A `mark` is an instant from which on a period has to pass, and `own` says whom this does not
concern: a call for a delayed entry marks its time for all other entries, and the start of a worker
marks it for all.  `Bay.Spaced` is what holds from a mark on: the next tick comes a period after it,
or it is for an entry that the mark does not concern.

Calls take no time here and ticks are taken when they are due: time passes only while no worker has
anything to do (`Depot.Prompt`).  This hypothesis is used in one place only, for what a worker knows
of its ticker (`Worker.Punctual`): a tick is taken at the instant at which it is due, so that the
next one comes a period after it and not earlier.

The period is that of the pool, and every worker has it (`Pool.Paced`), so the statements speak of
one `gap` throughout.  What is said of a worker is carried to a bay by one lemma for all such
properties (`Bay.Timely.ofWorker`): new workers have it, and it is kept by what is put in, by moves
and by waiting.

Main statement: in every such run, whatever comes in and however calls are answered, there is a
period between the calls for two delayed entries of a recipient, and between the start of a worker
and every call for a delayed entry (`Depot.throttled_run`).
-/

namespace Courier.Delivery

open Time

variable {ε π : Type}

/-! ### Runs on time -/

namespace Depot

/-- Time passes only while no open worker has a call under way, and not past the next tick. -/
def OnTime (d : Depot ε) : Event π → Prop
  | .elapse ms => ∀ w ∈ d.pool.workers, w.closed = false →
      w.inHand = none ∧ d.now + ms ≤ w.ticker.next
  | _ => True

instance (d : Depot ε) (e : Event π) : Decidable (d.OnTime e) :=
  match e with
  | .elapse ms => inferInstanceAs (Decidable (∀ w ∈ d.pool.workers, w.closed = false →
      w.inHand = none ∧ d.now + ms ≤ w.ticker.next))
  | .add .. | .begin _ | .proceed | .move .. | .clear | .signal _ => .isTrue trivial

variable [Deliverable ε] (book : Nat → Int → Entry π → ε)

/-- In a run calls take no time, and ticks are taken when they are due. -/
def Prompt (d : Depot ε) : List (Event π) → Prop
  | [] => True
  | e :: events => d.OnTime e ∧ Prompt (d.step book e) events

instance decidablePrompt (d : Depot ε) : (events : List (Event π)) →
    Decidable (d.Prompt book events)
  | [] => .isTrue trivial
  | e :: events =>
    have := decidablePrompt (d.step book e) events
    inferInstanceAs (Decidable (d.OnTime e ∧ (d.step book e).Prompt book events))

theorem prompt_append {d : Depot ε} {events later : List (Event π)} :
    d.Prompt book (events ++ later) ↔
      d.Prompt book events ∧ (d.run book events).Prompt book later := by
  induction events generalizing d with
  | nil => simp [Prompt]
  | cons e events ih => rw [List.cons_append, Prompt, Prompt, ih, run_cons, and_assoc]

theorem prompt_concat {d : Depot ε} {events : List (Event π)} {e : Event π} :
    d.Prompt book (events ++ [e]) ↔ d.Prompt book events ∧ (d.run book events).OnTime e := by
  simp [prompt_append, Prompt]

end Depot

/-! ### The pace of workers -/

/-- All workers of a pool, those to come included, have tickers of the same period. -/
structure Paced (gap : Nat) (p : Pool ε) : Prop where
  period : max Ticker.leastPeriod p.period = gap
  workers : ∀ w ∈ p.workers, w.ticker.period = gap

namespace Paced

variable {gap : Nat} {p : Pool ε}

theorem setWorker (h : Paced gap p) {w : Worker ε} (hw : w.ticker.period = gap) :
    Paced gap (p.setWorker w) := by
  refine ⟨h.period, fun v hv => ?_⟩
  obtain ⟨u, hu, rfl⟩ := List.mem_map.mp hv
  split
  · exact hw
  · exact h.workers u hu

theorem sweep (h : Paced gap p) : Paced gap p.sweep :=
  ⟨h.period, fun w hw => h.workers w (List.mem_filter.mp hw).1⟩

theorem replace (h : Paced gap p) (now : Nat) (r : Int) :
    Paced gap ((p.dismiss r).hire now r) := by
  refine ⟨h.period, fun w hw => ?_⟩
  rcases List.mem_append.mp hw with hw | hw
  · exact h.workers w (List.mem_filter.mp hw).1
  · rw [List.mem_singleton.mp hw]
    exact h.period

variable [Deliverable ε]

theorem give (h : Paced gap p) (r : Int) (es : List ε) : Paced gap (p.give r es) := by
  unfold Pool.give
  split
  · exact ⟨h.period, h.workers⟩
  · rename_i w hw
    split
    · rename_i w' hput
      refine h.setWorker ?_
      rw [(Worker.put_eq_ok hput).2]
      exact h.workers w (List.mem_of_find?_eq_some hw)
    · exact ⟨h.period, h.workers⟩

end Paced

theorem Worker.Moves.period_eq [Deliverable ε] {stop : Bool} {now : Nat} {w w' : Worker ε}
    {m : Move} {ds : Log ε} (h : w.Moves stop now m w' ds) :
    w'.ticker.period = w.ticker.period := by
  cases h <;> rfl

theorem Depot.paced_step [Deliverable ε] (book : Nat → Int → Entry π → ε) {gap : Nat}
    {d : Depot ε} (h : Paced gap d.pool) (e : Event π) : Paced gap (d.step book e).pool := by
  -- workers get the period of the pool when they are started, and keep it
  cases e with
  | add | signal | elapse => exact ⟨h.period, h.workers⟩
  | begin order =>
    simp only [step]
    split
    · exact h
    · exact h.sweep
  | proceed =>
    simp only [step]
    split
    · unfold proceed
      split
      · split
        · exact h
        · exact ⟨h.period, h.workers⟩
      · split
        · exact h.give _ _
        · split
          · rename_i hengage
            rcases Pool.engage_eq_some hengage with ⟨rfl, -⟩ | ⟨-, rfl⟩
            · exact h
            · exact h.replace _ _
          · exact ⟨h.period, h.workers⟩
    · exact h
  | move r m =>
    simp only [step]
    split
    · exact h
    · rename_i w hw
      split
      · exact h
      · rename_i w' hmove
        refine h.setWorker ?_
        rw [(Worker.moves_of_move? hmove).period_eq]
        exact h.workers w (List.mem_of_find?_eq_some hw)
  | clear =>
    simp only [step]
    split
    · exact ⟨h.period, h.workers⟩
    · exact h

/-! ### One recipient -/

/-- A deed is a call for a delayed entry. -/
def Deed.CallsDelayed (a : Deed (Tracked π)) : Prop := a.turn = .sent ∧ a.item.rest.delay = true

theorem Worker.Moves.time_deed [Deliverable ε] {stop : Bool} {now : Nat} {w w' : Worker ε}
    {m : Move} {ds : Log ε} (h : w.Moves stop now m w' ds) : ∀ a ∈ ds, a.time = now := by
  cases h with
  | halt =>
    intro a ha
    obtain ⟨x, -, rfl⟩ := List.mem_map.mp ha
    rfl
  | _ => simp [takeUp]

/-- A mark does not concern immediate entries, nor its own. -/
def Exempt (own : Nat → Prop) (x : Tracked π) : Prop := x.rest.delay = false ∨ own x.number

@[simp] theorem exempt_answer {own : Nat → Prop} {x : Tracked π} {o : Outcome} :
    Exempt own (Deliverable.answer x o).1 ↔ Exempt own x := by
  simp [Exempt]

namespace Worker

/-- A worker is on time: no tick is overdue, and while a delayed entry is in hand the next tick is a
period away. -/
structure Punctual (gap now : Nat) (w : Worker (Tracked π)) : Prop where
  due : now ≤ w.ticker.next
  inHand : ∀ x, w.inHand = some x → x.rest.delay = true → now + gap ≤ w.ticker.next

/-- A period has to pass from a mark on: the next tick comes after it or is for an entry that the
mark does not concern, and so is the call under way. -/
structure Spaced (gap mark : Nat) (own : Nat → Prop) (now : Nat) (w : Worker (Tracked π)) :
    Prop where
  head : mark + gap ≤ w.ticker.next ∨ ∃ x rest, w.delayed = x :: rest ∧ Exempt own x
  inHand : ∀ x, w.inHand = some x → Exempt own x ∨ mark + gap ≤ now

variable {gap mark now : Nat} {own : Nat → Prop} {stop : Bool} {w w' : Worker (Tracked π)}
  {m : Move} {ds : Log (Tracked π)}

theorem Punctual.moves (h : w.Punctual gap now) (hgap : w.ticker.period = gap)
    (himm : ∀ x ∈ w.immediate, x.rest.delay = false) (hmoves : w.Moves stop now m w' ds) :
    w'.Punctual gap now := by
  have hdue := h.due
  -- calls for immediate entries do not touch the ticker
  cases hmoves with
  | @wake x rest hopen hhand hq =>
    have hx := himm x (by rw [hq]; exact List.mem_cons_self)
    refine ⟨hdue, fun y hy hdelay => ?_⟩
    rw [eq_of_inHand_hold hy, hx] at hdelay
    cases hdelay
  | tick hopen hhand hnext hq =>
    -- the tick is taken when it is due, so the next one comes a period after this instant
    have htaken := Ticker.next_taken_of_le hdue
    refine ⟨?_, fun y _ _ => ?_⟩
    · rw [ticker_hold, htaken]
      omega
    · rw [ticker_hold, htaken]
      omega
  | idle hopen hhand hnext hq himm =>
    have htaken := Ticker.next_taken_of_le hdue
    refine ⟨by rw [htaken]; omega, fun y hy => ?_⟩
    rw [hhand] at hy
    cases hy
  | close hopen hhand hnext hq himm =>
    have htaken := Ticker.next_taken_of_le hdue
    refine ⟨by rw [htaken]; omega, fun y hy => ?_⟩
    rw [hhand] at hy
    cases hy
  | @onward x o hopen hhand hwait =>
    -- an answer that asks for nothing goes on with the same entry, under the same ticker
    refine ⟨hdue, fun y hy hdelay => ?_⟩
    rw [eq_of_inHand_hold hy] at hdelay
    exact h.inHand x hhand (by simpa using hdelay)
  | back hopen hhand hwait => exact ⟨Nat.le_add_right _ _, fun _ hy => nomatch hy⟩
  | halt hopen hhand hstop => exact ⟨hdue, h.inHand⟩

/-- An early tick is spent on the entry that was put in front just before. -/
theorem Spaced.moves (h : w.Spaced gap mark own now) (hpast : mark ≤ now)
    (hdue : now ≤ w.ticker.next) (hgap : w.ticker.period = gap)
    (himm : ∀ x ∈ w.immediate, x.rest.delay = false) (hmoves : w.Moves stop now m w' ds) :
    w'.Spaced gap mark own now := by
  -- whenever a tick is taken, the next one comes a period after the mark
  have htaken := Ticker.next_taken_of_le hdue
  have hlater : mark + gap ≤ (w.ticker.taken now).next := by omega
  cases hmoves with
  | @wake x rest hopen hhand hq =>
    -- an immediate entry is exempt from every mark
    have hx := himm x (by rw [hq]; exact List.mem_cons_self)
    refine ⟨h.head, fun y hy => ?_⟩
    rw [eq_of_inHand_hold hy]
    exact .inl (.inl hx)
  | @tick x rest hopen hhand hnext hq =>
    refine ⟨.inl hlater, fun y hy => ?_⟩
    rw [eq_of_inHand_hold hy]
    -- the early tick is for the entry in front, which is exempt
    rcases h.head with hmark | ⟨z, zs, hz, hexempt⟩
    · exact .inr (Nat.le_trans hmark hnext)
    · rw [hq] at hz
      obtain ⟨rfl, -⟩ := List.cons.inj hz
      exact .inl hexempt
  | idle hopen hhand hnext hq himm => exact ⟨.inl hlater, h.inHand⟩
  | close hopen hhand hnext hq himm => exact ⟨.inl hlater, h.inHand⟩
  | @onward x o hopen hhand hwait =>
    refine ⟨h.head, fun y hy => ?_⟩
    rw [eq_of_inHand_hold hy, exempt_answer]
    exact h.inHand x hhand
  | @back x o hopen hhand hwait =>
    -- the entry that is asked to wait goes in front, and the ticker is set
    refine ⟨?_, fun _ hy => nomatch hy⟩
    rcases h.inHand x hhand with hexempt | hmark
    · exact .inr ⟨_, _, rfl, exempt_answer.mpr hexempt⟩
    · exact .inl (Nat.le_trans hmark (Nat.le_add_right _ _))
  | halt hopen hhand hstop => exact ⟨h.head, h.inHand⟩

theorem Spaced.put (h : w.Spaced gap mark own now) {es : List (Tracked π)}
    (hput : w.put es = .ok w') : w'.Spaced gap mark own now := by
  obtain ⟨-, rfl⟩ := put_eq_ok hput
  refine ⟨?_, h.inHand⟩
  rcases h.head with hmark | ⟨x, rest, hq, hexempt⟩
  · exact .inl hmark
  · refine .inr ⟨x, rest ++ es.filter Deliverable.delay, ?_, hexempt⟩
    show w.delayed ++ es.filter Deliverable.delay = _
    rw [hq]
    rfl

/-- From its start on, a worker lets a period pass. -/
theorem spaced_new (r : Int) (period : Nat) (hgap : max Ticker.leastPeriod period = gap)
    (hpast : mark ≤ now) : (new r period now : Worker (Tracked π)).Spaced gap mark own now := by
  refine ⟨.inl ?_, fun _ hx => nomatch hx⟩
  rw [← hgap]
  exact Nat.add_le_add_right hpast _

theorem punctual_new (r : Int) (period now : Nat) :
    (new r period now : Worker (Tracked π)).Punctual gap now :=
  ⟨Nat.le_add_right _ _, fun _ hx => nomatch hx⟩

end Worker

namespace Bay

/-- Time has not moved, or no call was under way and no tick is overdue. -/
def OnTime (b b' : Bay ε) : Prop :=
  b'.now = b.now ∨ ∀ w, b.worker = some w → w.closed = false →
    w.inHand = none ∧ b'.now ≤ w.ticker.next

/-- A step in the bay of a recipient, in a run on time. -/
structure Timely (gap : Nat) (r : Int) (b b' : Bay (Tracked π)) (ds : Log (Tracked π)) :
    Prop where
  step : Step Tracked.book r b b' ds
  onTime : b.OnTime b'
  pace : ∀ w, b.worker = some w → w.ticker.period = gap
  pace' : ∀ w, b'.worker = some w → w.ticker.period = gap
  immediate : ∀ w, b.worker = some w → ∀ x ∈ w.immediate, x.rest.delay = false

/-- The open worker of a recipient, if there is one, has a property at the present time. -/
def OfWorker (Q : Nat → Worker (Tracked π) → Prop) (b : Bay (Tracked π)) : Prop :=
  ∀ w, b.worker = some w → w.closed = false → Q b.now w

variable {gap mark : Nat} {own : Nat → Prop} {r : Int} {b b' : Bay (Tracked π)}
  {ds log : Log (Tracked π)}

/-- What is true of new workers, and is kept when entries are put in, when the worker makes a move
and when it waits, is kept in every step. -/
theorem Timely.ofWorker {Q : Nat → Worker (Tracked π) → Prop} (h : Timely gap r b b' ds)
    (hQ : b.OfWorker Q)
    (hnew : ∀ period, max Ticker.leastPeriod period = gap → Q b.now (.new r period b.now))
    (hput : ∀ w w' es, Q b.now w → w.put es = .ok w' → Q b.now w')
    (hmove : ∀ w w' m, b.worker = some w → w.closed = false → Q b.now w →
      w.Moves b.stop b.now m w' (w.deeds b.now m) → Q b.now w')
    (hwait : ∀ w ms, w.inHand = none → b.now + ms ≤ w.ticker.next → Q b.now w →
      Q (b.now + ms) w) :
    b'.OfWorker Q := by
  have hpace' := h.pace'
  have hontime := h.onTime
  -- only a bay with a worker can lose the property
  cases h.step with
  | sweep => exact fun w hw => nomatch hw
  | engage period hclosed =>
    intro w hw _
    obtain rfl := Option.some.inj hw
    exact hnew period (hpace' _ rfl)
  | give hv hgive =>
    intro w hw _
    obtain rfl := Option.some.inj hw
    exact hput _ _ _ (hQ _ hv (Worker.put_eq_ok hgive).1) hgive
  | @move v w' m hv hmoves =>
    intro w hw _
    obtain rfl := Option.some.inj hw
    -- a closed worker makes no move
    have hopen : v.closed = false := by
      cases hclosed : v.closed with
      | false => rfl
      | true =>
        rw [Worker.move?_eq_none_of_closed hclosed] at hmoves
        cases hmoves
    exact hmove v _ m hv hopen (hQ v hv hopen) (Worker.moves_of_move? hmoves)
  | elapse ms =>
    intro w hw hopen
    -- if any time passes, the worker is waiting and no tick is due in between
    rcases hontime with hnow | hrest
    · have hms : b.now + ms = b.now := hnow
      show Q (b.now + ms) w
      rw [hms]
      exact hQ w hw hopen
    · obtain ⟨hhand, hdue⟩ := hrest w hw hopen
      exact hwait w ms hhand hdue (hQ w hw hopen)
  | add | other | withdraw | requeue | clear | signal | stay => exact hQ

theorem Timely.punctual (h : Timely gap r b b' ds) (hb : b.OfWorker (Worker.Punctual gap)) :
    b'.OfWorker (Worker.Punctual gap) := by
  refine h.ofWorker hb (fun period _ => Worker.punctual_new r period b.now)
    (fun w w' es hw hput => ?_) (fun w w' m hv _ hw hmoves => ?_) fun w ms hhand hdue _ => ?_
  · obtain ⟨-, rfl⟩ := Worker.put_eq_ok hput
    exact ⟨hw.due, hw.inHand⟩
  · exact hw.moves (h.pace w hv) (h.immediate w hv) hmoves
  · refine ⟨hdue, fun x hx => ?_⟩
    rw [hhand] at hx
    cases hx

theorem Step.now_le (h : Step Tracked.book r b b' ds) : b.now ≤ b'.now := by
  cases h with
  | elapse ms => exact Nat.le_add_right _ _
  | _ => exact Nat.le_refl _

/-- Calls are made at the present time. -/
theorem Step.time_of_sent (h : Step Tracked.book r b b' ds) {a : Deed (Tracked π)} (ha : a ∈ ds)
    (ht : a.turn = .sent) : a.time = b'.now := by
  cases h with
  | add e =>
    rw [List.mem_singleton.mp ha] at ht
    cases ht
  | move hw hmove => exact (Worker.moves_of_move? hmove).time_deed a ha
  | clear =>
    obtain ⟨x, -, rfl⟩ := List.mem_map.mp ha
    cases ht
  | _ => exact absurd ha List.not_mem_nil

/-- From a mark on, a period has to pass before the next call for an entry that it concerns. -/
structure Spaced (gap mark : Nat) (own : Nat → Prop) (b : Bay (Tracked π)) : Prop where
  past : mark ≤ b.now
  worker : b.OfWorker (Worker.Spaced gap mark own)

theorem Timely.spaced (h : Timely gap r b b' ds) (hpunctual : b.OfWorker (Worker.Punctual gap))
    (hb : Spaced gap mark own b) : Spaced gap mark own b' := by
  refine ⟨Nat.le_trans hb.past h.step.now_le, ?_⟩
  refine h.ofWorker hb.worker (fun period hgap => Worker.spaced_new r period hgap hb.past)
    (fun w w' es hw hput => hw.put hput)
    (fun w w' m hv hopen hw hmoves => ?_) fun w ms hhand _ hw => ⟨hw.head, fun x hx => ?_⟩
  · exact hw.moves hb.past (hpunctual w hv hopen).due (h.pace w hv) (h.immediate w hv) hmoves
  · rw [hhand] at hx
    cases hx

/-- Calls that a mark concerns are made a period later. -/
theorem Spaced.le_time (hb' : Spaced gap mark own b') (hstep : Step Tracked.book r b b' ds)
    {a : Deed (Tracked π)} (ha : a ∈ ds) (hcalls : a.CallsDelayed) (hown : ¬own a.item.number) :
    mark + gap ≤ a.time := by
  obtain ⟨w, hw, hopen, hhand⟩ := hstep.inHand_of_sent ha hcalls.1
  rw [hstep.time_of_sent ha hcalls.1]
  rcases (hb'.worker w hw hopen).inHand _ hhand with (hdelay | hsame) | hlate
  · rw [hcalls.2] at hdelay
    cases hdelay
  · exact absurd hsame hown
  · exact hlate

/-- A call for a delayed entry marks its time for all other entries. -/
theorem Step.spaced_of_calls (hstep : Step Tracked.book r b b' ds)
    (hpunctual : b'.OfWorker (Worker.Punctual gap)) {a : Deed (Tracked π)} (ha : a ∈ ds)
    (hcalls : a.CallsDelayed) : Spaced gap a.time (· = a.item.number) b' := by
  obtain ⟨w, hw, hopen, hhand⟩ := hstep.inHand_of_sent ha hcalls.1
  rw [hstep.time_of_sent ha hcalls.1]
  refine ⟨Nat.le_refl _, fun w' hw' _ => ?_⟩
  obtain rfl := Option.some.inj (hw.symm.trans hw')
  refine ⟨.inl ((hpunctual w hw hopen).inHand _ hhand hcalls.2), fun x hx => ?_⟩
  obtain rfl := Option.some.inj (hhand.symm.trans hx)
  exact .inl (.inr rfl)

/-- An open worker where there was none has just been started. -/
theorem Step.eq_new (hstep : Step Tracked.book r b b' ds)
    (hnone : ∀ w, b.worker = some w → w.closed = true) {w : Worker (Tracked π)}
    (hw : b'.worker = some w) (hopen : w.closed = false) :
    ∃ period, w = .new r period b'.now := by
  -- in all other cases the worker is the one from before, which was closed
  have same : b'.worker = b.worker → ∃ period, w = .new r period b'.now := by
    intro heq
    rw [heq] at hw
    rw [hnone w hw] at hopen
    cases hopen
  cases hstep with
  | sweep => cases hw
  | engage period hclosed => exact ⟨period, (Option.some.inj hw).symm⟩
  | give hv hput =>
    have hclosed := hnone _ hv
    rw [(Worker.put_eq_ok hput).1] at hclosed
    cases hclosed
  | move hv hmove =>
    rw [Worker.move?_eq_none_of_closed (hnone _ hv)] at hmove
    cases hmove
  | add | other | withdraw | requeue | clear | signal | elapse | stay => exact same rfl

/-- The start of a worker marks its time for all entries. -/
theorem Timely.spaced_of_start (h : Timely gap r b b' ds)
    (hnone : ∀ w, b.worker = some w → w.closed = true) {w : Worker (Tracked π)}
    (hw : b'.worker = some w) (hopen : w.closed = false) :
    Spaced gap b'.now (fun _ => False) b' := by
  refine ⟨Nat.le_refl _, fun w' hw' _ => ?_⟩
  obtain rfl := Option.some.inj (hw.symm.trans hw')
  obtain ⟨period, rfl⟩ := h.step.eq_new hnone hw hopen
  exact Worker.spaced_new r period (h.pace' _ hw) (Nat.le_refl _)

/-- There is a period between the calls for different delayed entries. -/
structure Throttled (gap : Nat) (b : Bay (Tracked π)) (log : Log (Tracked π)) : Prop where
  spaced : ∀ a ∈ log, a.CallsDelayed → Spaced gap a.time (· = a.item.number) b
  calls : log.Pairwise fun later earlier => later.CallsDelayed → earlier.CallsDelayed →
    later.item.number ≠ earlier.item.number → earlier.time + gap ≤ later.time

theorem Timely.throttled (h : Timely gap r b b' ds) (hpunctual : b.OfWorker (Worker.Punctual gap))
    (hb : Throttled gap b log) : Throttled gap b' (ds ++ log) := by
  have hlater : ∀ a ∈ log, a.CallsDelayed → Spaced gap a.time (· = a.item.number) b' :=
    fun a ha hcalls => h.spaced hpunctual (hb.spaced a ha hcalls)
  refine ⟨fun a ha hcalls => ?_, List.pairwise_append.mpr ⟨?_, hb.calls, ?_⟩⟩
  · rcases List.mem_append.mp ha with ha | ha
    · exact h.step.spaced_of_calls (h.punctual hpunctual) ha hcalls
    · exact hlater a ha hcalls
  · -- there is only one call at a time
    refine List.pairwise_of_forall_mem_list fun c hc a ha hcalls hcalls' hne => ?_
    exact absurd (congrArg Tracked.number (h.step.item_eq_of_sent hc hcalls.1 ha hcalls'.1)) hne
  · intro c hc a ha hcalls hcalls' hne
    exact (hlater a ha hcalls').le_time h.step hc hcalls hne

end Bay

namespace Depot

open Bay

theorem onTime_bay {d : Depot (Tracked π)} {e : Event π} (h : d.OnTime e) (r : Int) :
    (d.bay r).OnTime ((d.step Tracked.book e).bay r) := by
  rcases clock_step Tracked.book d e with ⟨hnow, -⟩ | ⟨ms, rfl⟩ | ⟨raised, rfl⟩
  · exact .inl hnow
  · refine .inr fun w hw hopen => ?_
    exact h w (List.mem_of_find?_eq_some hw) hopen
  · exact .inl rfl

theorem paced_run [Deliverable ε] (book : Nat → Int → Entry π → ε) (max period : Nat)
    (events : List (Event π)) :
    Paced (Max.max Ticker.leastPeriod period) ((start max period).run book events).pool := by
  induction events using List.reverseRecOn with
  | nil => exact ⟨rfl, fun w hw => absurd hw List.not_mem_nil⟩
  | append_singleton events e ih =>
    rw [run_concat]
    exact paced_step book ih e

/-- In a run on time every event is a step on time in the bay of a recipient. -/
theorem timely_run (max period : Nat) {events : List (Event π)} {e : Event π}
    (hontime : ((start max period).run Tracked.book events).OnTime e) (r : Int) :
    ∃ ds, Log.of ((start max period).run Tracked.book (events ++ [e])).log r =
        ds ++ Log.of ((start max period).run Tracked.book events).log r ∧
      Timely (Max.max Ticker.leastPeriod period) r
        (((start max period).run Tracked.book events).bay r)
        (((start max period).run Tracked.book (events ++ [e])).bay r) ds := by
  have hpace := paced_run Tracked.book max period events
  have hpace' := paced_run Tracked.book max period (events ++ [e])
  have hreach := bay_reachable Tracked.book max period events r
  rw [run_concat] at hpace' ⊢
  obtain ⟨ds, hlog, hstep⟩ := step_bay Tracked.book (distinct_run Tracked.book max period events) e r
  exact ⟨ds, hlog, hstep, onTime_bay hontime r,
    fun w hw => hpace.workers w (List.mem_of_find?_eq_some hw),
    fun w hw => hpace'.workers w (List.mem_of_find?_eq_some hw), fun w hw => hreach.immediate hw⟩

theorem throttled_bay (max period : Nat) {events : List (Event π)}
    (h : (start max period).Prompt Tracked.book events) (r : Int) :
    (((start max period).run Tracked.book events).bay r).OfWorker
        (Worker.Punctual (Max.max Ticker.leastPeriod period)) ∧
      Throttled (Max.max Ticker.leastPeriod period)
        (((start max period).run Tracked.book events).bay r)
        (Log.of ((start max period).run Tracked.book events).log r) := by
  induction events using List.reverseRecOn with
  | nil =>
    exact ⟨fun _ hw => (nomatch hw), fun _ ha => absurd ha List.not_mem_nil, List.Pairwise.nil⟩
  | append_singleton events e ih =>
    obtain ⟨hbefore, hontime⟩ := (prompt_concat Tracked.book).mp h
    obtain ⟨hpunctual, hthrottled⟩ := ih hbefore
    obtain ⟨ds, hlog, htimely⟩ := timely_run max period hontime r
    rw [hlog]
    exact ⟨htimely.punctual hpunctual, htimely.throttled hpunctual hthrottled⟩

/-- From a mark on, calls that it concerns are made a period later. -/
theorem spaced_run (max period : Nat) {before after : List (Event π)}
    (h : (start max period).Prompt Tracked.book (before ++ after)) {r : Int} {mark : Nat}
    {own : Nat → Prop} (hspaced : Spaced (Max.max Ticker.leastPeriod period) mark own
      (((start max period).run Tracked.book before).bay r)) :
    Spaced (Max.max Ticker.leastPeriod period) mark own
        (((start max period).run Tracked.book (before ++ after)).bay r) ∧
      ∃ ds, Log.of ((start max period).run Tracked.book (before ++ after)).log r =
          ds ++ Log.of ((start max period).run Tracked.book before).log r ∧
        ∀ a ∈ ds, a.CallsDelayed → ¬own a.item.number →
          mark + Max.max Ticker.leastPeriod period ≤ a.time := by
  -- by induction on what comes after the mark
  induction after using List.reverseRecOn with
  | nil =>
    rw [List.append_nil]
    exact ⟨hspaced, [], rfl, fun a ha => absurd ha List.not_mem_nil⟩
  | append_singleton after e ih =>
    rw [← List.append_assoc] at h ⊢
    obtain ⟨hbefore, hontime⟩ := (prompt_concat Tracked.book).mp h
    obtain ⟨hspaced', ds, hlog, hds⟩ := ih hbefore
    obtain ⟨hpunctual, -⟩ := throttled_bay max period hbefore r
    obtain ⟨new, hnew, htimely⟩ := timely_run max period hontime r
    have hspaced'' := htimely.spaced hpunctual hspaced'
    refine ⟨hspaced'', new ++ ds, by rw [hnew, hlog, List.append_assoc], fun a ha hcalls hown => ?_⟩
    rcases List.mem_append.mp ha with ha | ha
    · exact hspaced''.le_time htimely.step ha hcalls hown
    · exact hds a ha hcalls hown

/-- **There is a period between delayed entries.**  In every run in which calls take no time and
ticks are taken when they are due, whatever comes in and however calls are answered: the calls for
two delayed entries of a recipient are a period apart, and when a worker has been started for it,
every call for a delayed entry comes a period later at the earliest. -/
theorem throttled_run (max period : Nat) {events : List (Event π)}
    (h : (start max period).Prompt Tracked.book events) (r : Int) :
    (∀ (later between earlier : Log (Tracked π)) (a b : Deed (Tracked π)),
      Log.of ((start max period).run Tracked.book events).log r =
        later ++ b :: (between ++ a :: earlier) →
      a.turn = .sent → b.turn = .sent → a.item.origin.delay = true → b.item.origin.delay = true →
      a.item.number ≠ b.item.number → a.time + Max.max Ticker.leastPeriod period ≤ b.time) ∧
    ∀ (before after : List (Event π)) (e : Event π), events = before ++ e :: after →
      ((start max period).run Tracked.book before).pool.openWorker? r = none →
      (((start max period).run Tracked.book (before ++ [e])).pool.openWorker? r).isSome →
      ∃ ds, Log.of ((start max period).run Tracked.book events).log r =
          ds ++ Log.of ((start max period).run Tracked.book (before ++ [e])).log r ∧
        ∀ a ∈ ds, a.turn = .sent → a.item.origin.delay = true →
          ((start max period).run Tracked.book (before ++ [e])).now +
            Max.max Ticker.leastPeriod period ≤ a.time := by
  have hknown := (known_run max period events r).2
  have hcalls : ∀ a ∈ Log.of ((start max period).run Tracked.book events).log r,
      a.turn = .sent → a.item.origin.delay = true → a.CallsDelayed :=
    fun a ha ht hdelay => ⟨ht, (hknown a ha).1.delay.trans hdelay⟩
  -- the newest deed comes first, so the earlier call is the older part of the log
  refine ⟨fun later between earlier a b hlog hat hbt ha hb hne => ?_,
    fun before after e hevents hnone hsome => ?_⟩
  · have hpairs := (throttled_bay max period h r).2.calls
    have ha' := hcalls a (by rw [hlog]; simp) hat ha
    have hb' := hcalls b (by rw [hlog]; simp) hbt hb
    rw [hlog] at hpairs
    have hpair := (List.pairwise_append.mp hpairs).2.1
    exact List.rel_of_pairwise_cons hpair (by simp) hb' ha' hne.symm
  · -- a worker that was not there before has just been started, and its start marks the instant
    obtain ⟨w, hw⟩ := Option.isSome_iff_exists.mp hsome
    obtain ⟨hworker, hopen⟩ := Pool.openWorker?_eq_some_iff.mp hw
    have hsplit : events = (before ++ [e]) ++ after := by simp [hevents]
    subst hsplit
    obtain ⟨hbefore, -⟩ := (prompt_append Tracked.book).mp h
    obtain ⟨-, hontime⟩ := (prompt_concat Tracked.book).mp hbefore
    obtain ⟨_, -, htimely⟩ := timely_run max period hontime r
    have hspaced := htimely.spaced_of_start (Pool.openWorker?_eq_none_iff.mp hnone) hworker hopen
    obtain ⟨-, ds, hlog, hds⟩ := spaced_run max period h hspaced
    refine ⟨ds, hlog, fun a ha ht hdelay => ?_⟩
    have hmem : a ∈ Log.of ((start max period).run Tracked.book (before ++ [e] ++ after)).log r := by
      rw [hlog]
      exact List.mem_append_left _ ha
    exact hds a ha (hcalls a hmem ht hdelay) not_false

/-- Two delayed entries come in.  The first one is delivered; then an immediate one is asked to
wait, and the tick that comes early is spent on it. -/
def early : List (Event Nat) :=
  [.add 7 ⟨[.new 10 3], true⟩, .add 7 ⟨[.new 11 3], true⟩, .begin [7], .proceed, .proceed, .proceed,
    .proceed, .elapse 1000, .move 7 .tick, .move 7 (.answer .delivered), .elapse 200,
    .add 7 ⟨[.new 12 3], false⟩, .begin [7], .proceed, .proceed, .proceed, .proceed, .move 7 .wake,
    .move 7 (.answer (.rateLimited 300)), .elapse 300, .move 7 .tick, .move 7 (.answer .delivered),
    .elapse 1000, .move 7 .tick]

theorem throttled_run_early :
    (start 1 1000).Prompt Tracked.book early ∧
      (Log.of ((start 1 1000).run Tracked.book early).log 7).map
        (fun a => (a.turn, a.time, a.item.number)) =
        [(.sent, 2500, 1), (.finished, 1500, 2), (.answered .delivered, 1500, 2), (.sent, 1500, 2),
          (.answered (.rateLimited 300), 1200, 2), (.sent, 1200, 2), (.accepted, 1200, 2),
          (.finished, 1000, 0), (.answered .delivered, 1000, 0), (.sent, 1000, 0),
          (.accepted, 0, 1), (.accepted, 0, 0)] ∧
      ∃ ds, Log.of ((start 1 1000).run Tracked.book early).log 7 =
          ds ++ Log.of ((start 1 1000).run Tracked.book (early.take 5)).log 7 ∧
        ∀ a ∈ ds, a.turn = .sent → a.item.origin.delay = true → 0 + 1000 ≤ a.time := by
  have hprompt : (start 1 1000).Prompt Tracked.book early := by decide
  have hspaced := (throttled_run 1 1000 hprompt 7).2 (early.take 4) (early.drop 5) .proceed rfl
  exact ⟨hprompt, by decide, hspaced (by decide) (by decide)⟩

end Depot

end Courier.Delivery

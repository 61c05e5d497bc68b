import Courier.Proofs.Delivery.Capacity

/-!
What a pass of the pool does.

After the sweep all workers of the pool are open, and a pass closes none.  So for each recipient for
whom entries wait there are three outcomes: its worker takes them, a worker is started that takes
them, or they stay where they are because there is no room (`Served`).

Serving one recipient does not change what the others see (`Pool.Step.others`), and room is used up
only by workers that are started; hence a pass never wastes room, in whatever order it serves the
recipients (`Pool.steps_foldl`).  The induction on the order needs that no recipient comes twice:
the slots of the pool are those of different recipients.

One lemma for each outcome says what the step does (`Pool.step_of_worker`, `Pool.step_of_room`,
`Pool.step_of_full`), and for a recipient for whom nothing waits that it does nothing
(`Pool.step_of_nil`).

Main statement: in every state that a pool can get into, a pass in any order starts as many workers
as are wanted and as there is room for, hands all entries to the workers that there are then, in
order and behind what these already held, and leaves the other entries untouched
(`Depot.conserves_run`).  That there are never more workers than places is not assumed, but taken
from the run.
-/

namespace Courier.Delivery

variable {ε π : Type}

namespace Waiting

theorem mem_recipients {t : Waiting ε} (h : t.Distinct) {r : Int} :
    r ∈ recipients t ↔ entries t r ≠ [] := by
  constructor
  · intro hr
    obtain ⟨⟨k, es⟩, hslot, hsome⟩ := List.mem_filterMap.mp hr
    obtain ⟨hne, hk⟩ := Option.ite_none_left_eq_some.mp hsome
    obtain rfl : k = r := Option.some.inj hk
    have hlookup := Keyed.lookup_of_mem h hslot
    simpa [entries, hlookup] using hne
  · intro hne
    rcases hlookup : t.lookup r with - | es
    · simp [entries, hlookup] at hne
    · have hes : es ≠ [] := by simpa [entries, hlookup] using hne
      exact List.mem_filterMap.mpr ⟨(r, es), mem_of_lookup hlookup, by simp [hes]⟩

theorem nodup_recipients {t : Waiting ε} (h : t.Distinct) : (recipients t).Nodup := by
  refine List.Nodup.sublist ?_ h
  induction t with
  | nil => exact .slnil
  | cons slot t ih =>
    obtain ⟨k, es⟩ := slot
    have hrest := ih (List.nodup_cons.mp h).2
    rcases es with - | ⟨e, es⟩
    · exact hrest.cons k
    · exact hrest.cons_cons k

end Waiting

variable [Deliverable ε]

/-- The worker with entries behind those that it holds. -/
def Worker.laden (w : Worker ε) (es : List ε) : Worker ε :=
  { w with
    delayed := w.delayed ++ es.filter Deliverable.delay
    immediate := w.immediate ++ es.filter fun e => !Deliverable.delay e }

theorem Worker.laden_nil (w : Worker ε) : w.laden [] = w := by simp [laden]

theorem Worker.put_of_open {w : Worker ε} (h : w.closed = false) (es : List ε) :
    w.put es = .ok (w.laden es) := by
  simp [put, h, laden]

namespace Pool

variable (now : Nat)

/-! ### One recipient -/

/-- What becomes of the entries of a recipient and of its worker, in the end with or without room.

* `kept`: its worker takes them.
* `idle`: there are none.
* `started`: a worker is started that takes them.
* `left`: there is no room. -/
inductive Served (period : Nat) (r : Int) (full : Prop) :
    List ε → Option (Worker ε) → List ε → Option (Worker ε) → Prop
  | kept (es : List ε) (w : Worker ε) : Served period r full es (some w) [] (some (w.laden es))
  | idle : Served period r full [] none [] none
  | started {es : List ε} (hes : es ≠ []) :
      Served period r full es none [] (some ((Worker.new r period now).laden es))
  | left {es : List ε} (hes : es ≠ []) (hfull : full) : Served period r full es none es none

namespace Served

variable {now} {period : Nat} {r : Int} {full full' : Prop} {es es' : List ε}
  {w? w?' : Option (Worker ε)}

theorem mono (hfull : full → full') (h : Served now period r full es w? es' w?') :
    Served now period r full' es w? es' w?' := by
  cases h with
  | kept es w => exact .kept es w
  | idle => exact .idle
  | started hes => exact .started hes
  | left hes h => exact .left hes (hfull h)

/-- Where nothing waits, nothing changes. -/
theorem of_nil (w? : Option (Worker ε)) : Served now period r full [] w? [] w? := by
  rcases w? with - | w
  · exact .idle
  · simpa only [w.laden_nil] using Served.kept (ε := ε) [] w

theorem of_some {w : Worker ε} (h : Served now period r full es (some w) es' w?') :
    es' = [] ∧ w?' = some (w.laden es) := by
  cases h
  exact ⟨rfl, rfl⟩

theorem of_none {w : Worker ε} (h : Served now period r full es none es' (some w)) :
    es ≠ [] ∧ es' = [] ∧ w = (Worker.new r period now).laden es := by
  cases h with
  | started hes => exact ⟨hes, rfl, rfl⟩

theorem of_ne_nil (h : Served now period r full es w? es' w?') (hes' : es' ≠ []) :
    full ∧ w?' = none ∧ es' = es := by
  cases h with
  | kept => exact absurd rfl hes'
  | idle => exact absurd rfl hes'
  | started => exact absurd rfl hes'
  | left _ hfull => exact ⟨hfull, rfl, rfl⟩

end Served

/-- Whether entries wait for a recipient without a worker. -/
def wants (p : Pool ε) (r : Int) : Bool :=
  !(p.waiting.entries r).isEmpty && (p.worker? r).isNone

/-- Whether all workers are open. -/
def AllOpen (p : Pool ε) : Prop := ∀ w ∈ p.workers, w.closed = false

/-- How a pool and the room in it change when the entries of a recipient are handed over.

* `length`: room becomes a worker.
* `room`: a worker is started if one is wanted and there is room. -/
structure Step (p : Pool ε) (room : Nat) (r : Int) (q : Pool ε) (room' : Nat) : Prop where
  period : q.period = p.period
  allOpen : q.AllOpen
  length : q.workers.length + room' = p.workers.length + room
  room : room' = room - (p.wants r).toNat
  served : Served now p.period r (room' = 0) (p.waiting.entries r) (p.worker? r)
    (q.waiting.entries r) (q.worker? r)
  others : ∀ r' ≠ r, q.waiting.entries r' = p.waiting.entries r' ∧ q.worker? r' = p.worker? r'

omit [Deliverable ε] in
theorem AllOpen.closed_of_worker? {p : Pool ε} (h : p.AllOpen) {r : Int} {w : Worker ε}
    (hw : p.worker? r = some w) : w.closed = false :=
  h w (List.mem_of_find?_eq_some hw)

omit [Deliverable ε] in
theorem AllOpen.setWorker {p : Pool ε} (h : p.AllOpen) {w : Worker ε} (hw : w.closed = false) :
    (p.setWorker w).AllOpen := by
  intro v hv
  obtain ⟨u, hu, rfl⟩ := List.mem_map.mp hv
  split
  · exact hw
  · exact h u hu

omit [Deliverable ε] in
theorem AllOpen.hire {p : Pool ε} (h : p.AllOpen) (r : Int) : (p.hire now r).AllOpen := by
  intro v hv
  rcases List.mem_append.mp hv with hv | hv
  · exact h v hv
  · rw [List.mem_singleton.mp hv]
    rfl

theorem give_of_open {p : Pool ε} {r : Int} {w : Worker ε} (hw : p.worker? r = some w)
    (hopen : w.closed = false) (es : List ε) : p.give r es = p.setWorker (w.laden es) := by
  simp only [give, hw, Worker.put_of_open hopen]

section HandOver

variable {now} {p : Pool ε} (h : p.AllOpen) (room : Nat) {r : Int}

theorem handOver_of_engage {q : Pool ε} {room room' : Nat} (hes : p.waiting.entries r ≠ [])
    (hq : (p.withdraw r).2.engage room now r = some (q, room')) :
    handOver now p room r = (q.give r (p.waiting.entries r), room') := by
  have hwithdraw : p.withdraw r = (p.waiting.entries r, (p.withdraw r).2) := rfl
  rw [handOver, hwithdraw]
  simp only [List.isEmpty_iff, hes, if_false, hq]

variable (now)

include h

/-- Nothing waits. -/
theorem step_of_nil (hes : p.waiting.entries r = []) :
    Step now p room r (handOver now p room r).1 (handOver now p room r).2 := by
  have hstep : handOver now p room r = ((p.withdraw r).2, room) := by
    simp [handOver, withdraw, hes]
  rw [hstep]
  constructor
  case period => rfl
  case allOpen => exact h
  case length => rfl
  case room => simp [wants, hes]
  case served =>
    have hnone : (p.withdraw r).2.waiting.entries r = [] := by
      simp [withdraw, Waiting.entries_erase]
    rw [hnone, hes]
    exact .of_nil _
  case others =>
    intro r' hr'
    exact ⟨by simp [withdraw, Waiting.entries_erase, hr'], rfl⟩

/-- The worker of the recipient takes what waits. -/
theorem step_of_worker (hes : p.waiting.entries r ≠ []) {w : Worker ε}
    (hw : p.worker? r = some w) :
    Step now p room r (handOver now p room r).1 (handOver now p room r).2 := by
  -- the worker is open, since all are after the sweep
  have hopen := h.closed_of_worker? hw
  have hworker : (p.withdraw r).2.worker? r = some w := hw
  have hrecipient : (w.laden (p.waiting.entries r)).recipient = r := by
    show w.recipient = r
    exact recipient_of_worker? hw
  have hengage : (p.withdraw r).2.engage room now r = some ((p.withdraw r).2, room) := by
    simp [engage, hworker, hopen]
  rw [handOver_of_engage hes hengage, give_of_open hworker hopen]
  constructor
  case period => rfl
  case allOpen => exact AllOpen.setWorker h hopen
  case length => simp [Pool.setWorker, withdraw]
  case room => simp [wants, hw]
  case served =>
    have hlater : ((p.withdraw r).2.setWorker (w.laden (p.waiting.entries r))).worker? r =
        some (w.laden (p.waiting.entries r)) := by
      rw [worker?_setWorker, hrecipient, if_pos rfl, hworker]
      rfl
    have hnone : ((p.withdraw r).2.setWorker (w.laden (p.waiting.entries r))).waiting.entries r =
        [] := by
      simp [withdraw, Waiting.entries_erase]
    rw [hlater, hnone, hw]
    exact .kept _ w
  case others =>
    intro r' hr'
    refine ⟨by simp [withdraw, Waiting.entries_erase, hr'], ?_⟩
    rw [worker?_setWorker, hrecipient, if_neg hr']
    rfl

/-- A worker is started that takes what waits. -/
theorem step_of_room (hes : p.waiting.entries r ≠ []) (hw : p.worker? r = none)
    (hroom : 0 < room) :
    Step now p room r (handOver now p room r).1 (handOver now p room r).2 := by
  -- the new worker takes the entries at once
  have hworker : (p.withdraw r).2.worker? r = none := hw
  have hnew : ((p.withdraw r).2.hire now r).worker? r = some (.new r p.period now) := by
    rw [worker?_hire, hworker, if_pos rfl]
    rfl
  have hengage : (p.withdraw r).2.engage room now r =
      some ((p.withdraw r).2.hire now r, room - 1) := by
    simp [engage, hworker, hroom]
  have hrecipient : ((Worker.new r p.period now).laden (p.waiting.entries r)).recipient = r := rfl
  rw [handOver_of_engage hes hengage, give_of_open hnew rfl]
  constructor
  case period => rfl
  case allOpen => exact AllOpen.setWorker (AllOpen.hire now h r) rfl
  case length =>
    simp only [Pool.setWorker, hire, withdraw, List.length_map, List.length_append,
      List.length_singleton]
    omega
  case room =>
    have hwants : p.wants r = true := by simp [wants, hw, hes]
    rw [hwants]
    rfl
  case served =>
    have hlater : (((p.withdraw r).2.hire now r).setWorker
        ((Worker.new r p.period now).laden (p.waiting.entries r))).worker? r =
          some ((Worker.new r p.period now).laden (p.waiting.entries r)) := by
      rw [worker?_setWorker, hrecipient, if_pos rfl, hnew]
      rfl
    have hnone : (((p.withdraw r).2.hire now r).setWorker
        ((Worker.new r p.period now).laden (p.waiting.entries r))).waiting.entries r = [] := by
      simp [withdraw, hire, Waiting.entries_erase]
    rw [hlater, hnone, hw]
    exact .started hes
  case others =>
    intro r' hr'
    refine ⟨by simp [withdraw, hire, Waiting.entries_erase, hr'], ?_⟩
    rw [worker?_setWorker, hrecipient, if_neg hr', worker?_hire, if_neg hr', Option.or_none]
    rfl

/-- There is no room, and everything stays as it is. -/
theorem step_of_full (hes : p.waiting.entries r ≠ []) (hw : p.worker? r = none) :
    Step now p 0 r (handOver now p 0 r).1 (handOver now p 0 r).2 := by
  have hworker : (p.withdraw r).2.worker? r = none := hw
  have hengage : (p.withdraw r).2.engage 0 now r = none := by simp [engage, hworker]
  have hwithdraw : p.withdraw r = (p.waiting.entries r, (p.withdraw r).2) := rfl
  have hstep : handOver now p 0 r =
      ((p.withdraw r).2.requeue r (p.waiting.entries r), 0) := by
    rw [handOver, hwithdraw]
    simp only [List.isEmpty_iff, hes, if_false, hengage]
  rw [hstep]
  constructor
  case period => rfl
  case allOpen => exact h
  case length => rfl
  case room => exact (Nat.zero_sub _).symm
  case served =>
    -- what has been withdrawn is put back
    have hback : ((p.withdraw r).2.requeue r (p.waiting.entries r)).waiting.entries r =
        p.waiting.entries r := by
      simp [requeue, withdraw, Waiting.entries_update, Waiting.entries_erase]
    have hlater : ((p.withdraw r).2.requeue r (p.waiting.entries r)).worker? r = none := hw
    rw [hback, hlater, hw]
    exact .left hes rfl
  case others =>
    intro r' hr'
    exact ⟨by simp [requeue, withdraw, Waiting.entries_update, Waiting.entries_erase, hr'], rfl⟩

/-- Handing over the entries of a recipient changes what this recipient sees, and nothing that the
others see. -/
theorem step_handOver (r : Int) :
    Step now p room r (handOver now p room r).1 (handOver now p room r).2 := by
  by_cases hes : p.waiting.entries r = []
  · exact step_of_nil now h room hes
  · rcases hw : p.worker? r with - | w
    · rcases Nat.eq_zero_or_pos room with rfl | hroom
      · exact step_of_full now h hes hw
      · exact step_of_room now h room hes hw hroom
    · exact step_of_worker now h room hes hw

end HandOver

/-! ### All recipients -/

/-- How a pool and the room in it change when the entries of some recipients are handed over. -/
structure Steps (p : Pool ε) (room : Nat) (order : List Int) (q : Pool ε) (room' : Nat) :
    Prop where
  allOpen : q.AllOpen
  length : q.workers.length + room' = p.workers.length + room
  room : room' = room - order.countP p.wants
  served : ∀ r ∈ order, Served now p.period r (room' = 0) (p.waiting.entries r) (p.worker? r)
    (q.waiting.entries r) (q.worker? r)
  others : ∀ r ∉ order, q.waiting.entries r = p.waiting.entries r ∧ q.worker? r = p.worker? r

/-- One recipient after the other is served, and each as it would have been at first. -/
theorem steps_foldl {p : Pool ε} (h : p.AllOpen) (room : Nat) {order : List Int}
    (horder : order.Nodup) :
    Steps now p room order
      (order.foldl (fun s r => handOver now s.1 s.2 r) (p, room)).1
      (order.foldl (fun s r => handOver now s.1 s.2 r) (p, room)).2 := by
  -- by induction on the order, with the state after the first recipient
  induction order generalizing p room with
  | nil => exact ⟨h, rfl, rfl, fun r hr => absurd hr List.not_mem_nil, fun r _ => ⟨rfl, rfl⟩⟩
  | cons r order ih =>
    obtain ⟨hr, hrest⟩ := List.nodup_cons.mp horder
    have hstep := step_handOver now h room r
    rw [List.foldl_cons]
    generalize handOver now p room r = result at hstep
    obtain ⟨p', room'⟩ := result
    have hsteps := ih hstep.allOpen room' hrest
    generalize order.foldl (fun s r => handOver now s.1 s.2 r) (p', room') = result at hsteps
    obtain ⟨q, room''⟩ := result
    -- the others see what they saw before
    have hwants : order.countP p'.wants = order.countP p.wants := by
      refine List.countP_congr fun r' hr' => ?_
      obtain ⟨hentries, hworker⟩ := hstep.others r' fun heq => hr (heq ▸ hr')
      rw [wants, wants, hentries, hworker]
    have hroom : room'' = room' - order.countP p.wants := hwants ▸ hsteps.room
    constructor
    case allOpen => exact hsteps.allOpen
    case length => exact hsteps.length.trans hstep.length
    case room =>
      have hfirst := hstep.room
      have hcount : (r :: order).countP p.wants = order.countP p.wants + (p.wants r).toNat := by
        rw [List.countP_cons]
        cases p.wants r <;> rfl
      rw [hcount]
      omega
    case served =>
      intro r' hr'
      rcases List.mem_cons.mp hr' with rfl | hr'
      · obtain ⟨hentries, hworker⟩ := hsteps.others r' hr
        rw [hentries, hworker]
        exact hstep.served.mono fun hfull => by
          show room'' = 0
          have hfull : room' = 0 := hfull
          omega
      · obtain ⟨hentries, hworker⟩ := hstep.others r' fun heq => hr (heq ▸ hr')
        have hserved := hsteps.served r' hr'
        rwa [hentries, hworker, hstep.period] at hserved
    case others =>
      intro r' hr'
      obtain ⟨hne, hnot⟩ := not_or.mp (mt List.mem_cons.mpr hr')
      obtain ⟨hentries, hworker⟩ := hstep.others r' hne
      obtain ⟨hentries', hworker'⟩ := hsteps.others r' hnot
      exact ⟨hentries'.trans hentries, hworker'.trans hworker⟩

/-! ### A pass -/

omit [Deliverable ε] in
theorem AllOpen.openWorker?_eq {p : Pool ε} (h : p.AllOpen) (r : Int) :
    p.openWorker? r = p.worker? r := by
  rcases hw : p.worker? r with - | w
  · simp [openWorker?, hw]
  · simp [openWorker?, hw, h.closed_of_worker? hw]

omit [Deliverable ε] in
theorem AllOpen.live_eq {p : Pool ε} (h : p.AllOpen) : p.live = p.workers.length :=
  List.countP_eq_length.mpr fun w hw => by simp [h w hw]

/-- The recipients for whom entries wait and who have no open worker. -/
def unserved (p : Pool ε) : List Int :=
  (Waiting.recipients p.waiting).filter fun r => (p.openWorker? r).isNone

/-- What a pass at an instant makes of a pool in which there may be `max` workers.

* `live`: no room is wasted.
* `kept`: who had an open worker still has it; the worker has taken all that waited, in order and
  behind what it held.
* `started`: who has got a worker had entries, and the new worker has taken all of them.
* `left`: entries are left only for want of room, and untouched. -/
structure Conserves (max now : Nat) (p q : Pool ε) : Prop where
  live : q.live = min max (p.live + p.unserved.length)
  kept : ∀ r w, p.openWorker? r = some w →
    q.waiting.entries r = [] ∧ q.openWorker? r = some (w.laden (p.waiting.entries r))
  started : ∀ r w, p.openWorker? r = none → q.openWorker? r = some w →
    p.waiting.entries r ≠ [] ∧ q.waiting.entries r = [] ∧
      w = (Worker.new r p.period now).laden (p.waiting.entries r)
  left : ∀ r, q.waiting.entries r ≠ [] →
    q.live = max ∧ q.openWorker? r = none ∧ q.waiting.entries r = p.waiting.entries r

theorem conserves_reconcileIn {p : Pool ε} (h : p.Distinct) (hlive : p.live ≤ p.max)
    {order : List Int} (horder : order.Perm (Waiting.recipients p.waiting)) :
    Conserves p.max now p (p.reconcileIn order now) := by
  have hsweep : p.sweep.AllOpen := fun w hw => by simpa using (List.mem_filter.mp hw).2
  have hworkers : p.sweep.workers.length = p.live := List.countP_eq_length_filter.symm
  have hopen : ∀ r, p.sweep.worker? r = p.openWorker? r := h.worker?_sweep
  have hwaiting : ∀ r, p.sweep.waiting.entries r = p.waiting.entries r := fun _ => rfl
  have hsteps := steps_foldl now hsweep p.sweep.room
    (horder.nodup_iff.mpr (Waiting.nodup_recipients h.waiting))
  have hmem : ∀ r, r ∈ order ↔ p.waiting.entries r ≠ [] := fun r =>
    horder.mem_iff.trans (Waiting.mem_recipients h.waiting)
  -- the recipients that want a worker are those that have none, in any order
  have hcount : order.countP p.sweep.wants = p.unserved.length := by
    rw [horder.countP_eq, unserved, ← List.countP_eq_length_filter]
    refine List.countP_congr fun r hr => ?_
    have hne := (Waiting.mem_recipients h.waiting).mp hr
    simp [wants, hopen, hne]
  unfold reconcileIn
  generalize order.foldl (fun s r => handOver now s.1 s.2 r) (p.sweep, p.sweep.room) = result
    at hsteps
  obtain ⟨q, room⟩ := result
  have hroom : room = p.max - p.live - p.unserved.length := by
    have hroom := hsteps.room
    rw [hcount, Pool.room, hworkers] at hroom
    exact hroom
  have hlength : q.workers.length + room = p.live + (p.max - p.live) := by
    have hlength := hsteps.length
    rw [Pool.room, hworkers] at hlength
    exact hlength
  have hqlive : q.live = q.workers.length := hsteps.allOpen.live_eq
  -- what becomes of each recipient, whether entries wait for it or not
  have hserved : ∀ r, Served now p.period r (room = 0) (p.waiting.entries r) (p.openWorker? r)
      (q.waiting.entries r) (q.openWorker? r) := by
    intro r
    rw [hsteps.allOpen.openWorker?_eq, ← hopen, ← hwaiting]
    by_cases hr : r ∈ order
    · exact hsteps.served r hr
    · obtain ⟨hentries, hworker⟩ := hsteps.others r hr
      have hnil : p.sweep.waiting.entries r = [] := by
        by_contra hne
        exact hr ((hmem r).mpr hne)
      rw [hentries, hworker, hnil]
      exact .of_nil _
  constructor
  case live =>
    show q.live = _
    omega
  case kept =>
    intro r w hw
    exact (hw ▸ hserved r).of_some
  case started =>
    intro r w hw hw'
    have hr := hserved r
    rw [hw, hw'] at hr
    exact hr.of_none
  case left =>
    intro r hne
    obtain ⟨hfull, hworker, hentries⟩ := (hserved r).of_ne_nil hne
    refine ⟨?_, hworker, hentries⟩
    show q.live = _
    omega

end Pool

namespace Depot

variable (book : Nat → Int → Entry π → ε)

/-- There are never more workers in the pool than there may be. -/
theorem length_workers_run (max period : Nat) (events : List (Event π)) :
    ((start max period).run book events).pool.workers.length ≤ max ∧
      ((start max period).run book events).pool.max = max := by
  obtain ⟨es, hes⟩ := Fleet.exists_fleet book max period events
  obtain ⟨hcrewed, hfits, hmax⟩ := Fleet.crewed_run book max period es
  rw [← hes]
  refine ⟨?_, hmax⟩
  exact Nat.le_trans (Nat.le_of_eq (Fleet.length_workers hcrewed)) (Fleet.length_table_le hfits hmax)

theorem live_run_le (max period : Nat) (events : List (Event π)) :
    ((start max period).run book events).pool.live ≤
      ((start max period).run book events).pool.max := by
  obtain ⟨hlength, hmax⟩ := length_workers_run book max period events
  rw [hmax]
  exact Nat.le_trans List.countP_le_length hlength

/-- In every state that a pool can get into, a pass wastes no room and loses no entry, in whatever
order it serves the recipients for whom entries wait. -/
theorem conserves_run (max period : Nat) (events : List (Event π)) {order : List Int}
    (horder : order.Perm
      (Waiting.recipients ((start max period).run book events).pool.waiting)) :
    Pool.Conserves max ((start max period).run book events).now
      ((start max period).run book events).pool
      (((start max period).run book events).pool.reconcileIn order
        ((start max period).run book events).now) := by
  have hconserves := Pool.conserves_reconcileIn ((start max period).run book events).now
    (distinct_run book max period events) (live_run_le book max period events) horder
  rwa [(length_workers_run book max period events).2] at hconserves

/-- A worker is at work for recipient 1, and more comes in for it and for two others, with room for
one more worker. -/
def crowd : List (Event Nat) :=
  [.add 1 ⟨[.new 10 3], true⟩, .begin [1], .proceed, .proceed, .proceed, .proceed,
    .add 1 ⟨[.new 11 3], false⟩, .add 2 ⟨[.new 20 3], true⟩, .add 3 ⟨[.new 30 3], true⟩]

theorem conserves_run_crowd :
    [3, 2, 1].Perm (Waiting.recipients ((start 2 1000).run bare crowd).pool.waiting) ∧
      Pool.Conserves 2 0 ((start 2 1000).run bare crowd).pool
        (((start 2 1000).run bare crowd).pool.reconcileIn [3, 2, 1] 0) ∧
      (((start 2 1000).run bare crowd).pool.reconcileIn [3, 2, 1] 0).waiting.entries 2 =
        [⟨[.new 20 3], true⟩] := by
  have horder :
      [3, 2, 1].Perm (Waiting.recipients ((start 2 1000).run bare crowd).pool.waiting) := by
    decide
  exact ⟨horder, conserves_run bare 2 1000 crowd horder, by decide⟩

end Depot

end Courier.Delivery

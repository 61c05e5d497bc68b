import Courier.Proofs.Delivery.Dispatching
import Courier.Proofs.Delivery.Fleet

/-!
How many workers there are.

The pool sees of a fleet what its table holds: `Fleet.depot` is this view, and every event of a
fleet is in this view an event of a depot, or nothing at all (`Fleet.depot_step`).  Conversely
whatever happens to a depot can happen to the fleet behind it (`Fleet.step_depot`).  So a fleet is
no more than a depot that remembers the workers it has let go.

The view is right only if the table says the truth about the crew: every place in it is that of a
worker of that recipient, no recipient is in it twice, and every open worker is in it.  This is
`Crewed`, and it holds of every run, together with the bound on the length of the table
(`Fleet.crewed_run`).

Main statements: at every moment of every run at most `max` of all workers that were ever started
are open, no two of them for one recipient, and each of them is the one in the table, so that no two
calls to one recipient are under way (`Fleet.exclusive_run`); and a dispatcher never has more than
`max` workers in its pool (`Dispatcher.Reachable.length_workers_le`), so that it makes no attempt at
all if `max` is zero (`Dispatcher.Reachable.attempts_eq_nil`).
-/

namespace Courier.Delivery

variable {ε π : Type}

namespace Fleet

/-! ### What the pool sees -/

/-- The pool with the workers in the table. -/
def pool (f : Fleet ε) : Pool ε :=
  { max := f.max, period := f.period, waiting := f.waiting
    workers := f.table.filterMap fun t => f.crew[t.2]? }

/-- The fleet as the pool sees it. -/
def depot (f : Fleet ε) : Depot ε :=
  { pool := f.pool, pass := f.pass, stop := f.stop, now := f.now, count := f.count, log := f.log }

@[simp] theorem pass_depot (f : Fleet ε) : f.depot.pass = f.pass := rfl

theorem pool_eq {f : Fleet ε} {p : Pool ε} (hworkers : f.pool.workers = p.workers)
    (hmax : f.max = p.max) (hperiod : f.period = p.period) (hwaiting : f.waiting = p.waiting) :
    f.pool = p := by
  obtain ⟨max, period, waiting, workers⟩ := p
  subst hmax hperiod hwaiting hworkers
  rfl

theorem depot_eq {f : Fleet ε} {d : Depot ε} (hpool : f.pool = d.pool) (hpass : f.pass = d.pass)
    (hstop : f.stop = d.stop) (hnow : f.now = d.now) (hcount : f.count = d.count)
    (hlog : f.log = d.log) : f.depot = d := by
  rw [depot, hpool, hpass, hstop, hnow, hcount, hlog]

theorem pool_sweep (f : Fleet ε) : f.sweep.pool = f.pool.sweep := by
  refine pool_eq ?_ rfl rfl rfl
  simp only [pool, sweep, Pool.sweep, List.filterMap_filter, List.filter_filterMap]
  congr 1
  funext t
  rcases hw : f.crew[t.2]? with - | w
  · simp [isOpen, hw]
  · cases hc : w.closed <;> simp [isOpen, hw, hc, Option.filter]

variable [Deliverable ε] {f : Fleet ε}

theorem length_workers (h : Crewed f.crew f.table) :
    f.pool.workers.length = f.table.length := by
  have hsome : ∀ t ∈ f.table, f.crew[t.2]?.isSome := by
    intro t ht
    obtain ⟨w, hw, -⟩ := h.member t.1 t.2 ht
    rw [hw]
    rfl
  rw [pool, List.length_filterMap_eq_countP]
  exact List.countP_eq_length.mpr hsome

/-- The pool finds the worker that the table holds. -/
theorem worker?_pool (h : Crewed f.crew f.table) (r : Int) : f.pool.worker? r = f.worker? r := by
  -- stated for any table of workers that are there, for the induction on the table
  have key : ∀ table : List (Int × Nat),
      (∀ r i, (r, i) ∈ table → ∃ w, f.crew[i]? = some w ∧ w.recipient = r) →
      (table.filterMap fun t => f.crew[t.2]?).find? (fun w => w.recipient = r) =
        (table.lookup r).bind fun i => f.crew[i]? := by
    intro table hmember
    induction table with
    | nil => rfl
    | cons t table ih =>
      obtain ⟨k, i⟩ := t
      obtain ⟨w, hw, hwk⟩ := hmember k i List.mem_cons_self
      have hrest := ih fun r j hj => hmember r j (List.mem_cons_of_mem _ hj)
      rw [List.filterMap_cons_some (f := fun t : Int × Nat => f.crew[t.2]?) hw, List.lookup_cons]
      by_cases hk : k = r
      · simp [hwk, hk, hw]
      · have hne : (r == k) = false := by simpa using Ne.symm hk
        simpa [hwk, hk, hne] using hrest
  exact key f.table h.member

theorem pool_dismiss (h : Crewed f.crew f.table) (r : Int) :
    (f.dismiss r).pool = f.pool.dismiss r := by
  refine pool_eq ?_ rfl rfl rfl
  simp only [pool, dismiss, Pool.dismiss, List.filterMap_filter, List.filter_filterMap]
  refine List.filterMap_congr fun t ht => ?_
  obtain ⟨w, hw, hwt⟩ := h.member t.1 t.2 ht
  by_cases hr : t.1 = r <;> simp [hw, hwt, hr, Option.filter]

theorem pool_hire (h : Crewed f.crew f.table) (r : Int) :
    (f.hire r).pool = f.pool.hire f.now r := by
  refine pool_eq ?_ rfl rfl rfl
  simp only [pool, hire, Pool.hire, List.filterMap_append]
  congr 1
  · -- those who are there keep their places
    refine List.filterMap_congr fun t ht => ?_
    obtain ⟨w, hw, -⟩ := h.member t.1 t.2 ht
    exact List.getElem?_append_left (List.getElem?_eq_some_iff.mp hw).1
  · simp

/-- The worker in the table goes on: in the pool it takes its own place. -/
theorem pool_set (h : Crewed f.crew f.table) {r : Int} {i : Nat} {w : Worker ε}
    (hi : (r, i) ∈ f.table) (hw : w.recipient = r) :
    Fleet.pool { f with crew := f.crew.set i w } = f.pool.setWorker w := by
  refine pool_eq ?_ rfl rfl rfl
  simp only [pool, Pool.setWorker, List.map_filterMap]
  refine List.filterMap_congr fun t ht => ?_
  obtain ⟨v, hv, hvt⟩ := h.member t.1 t.2 ht
  have hlt : t.2 < f.crew.length := (List.getElem?_eq_some_iff.mp hv).1
  by_cases hplace : i = t.2
  · -- the same place is that of the same recipient
    have hrt : t.1 = r := by
      obtain ⟨u, hu, hur⟩ := h.member r i hi
      rw [hplace, hv] at hu
      obtain rfl := Option.some.inj hu
      exact hvt.symm.trans hur
    rw [hv, hplace, List.getElem?_set_self hlt]
    simp [hvt, hrt, hw]
  · -- another place is that of another recipient, since no recipient is in the table twice
    have hrt : t.1 ≠ r := by
      intro hrt
      have hlookup := h.keyed.lookup_of_mem hi
      rw [← hrt, h.keyed.lookup_of_mem (show (t.1, t.2) ∈ f.table from ht)] at hlookup
      exact hplace (Option.some.inj hlookup).symm
    rw [hv, List.getElem?_set_ne hplace, hv]
    simp [hvt, hw, hrt]

theorem pool_engage (h : Crewed f.crew f.table) (room : Nat) (r : Int) :
    f.pool.engage room f.now r = (f.engage room r).map fun g => (g.1.pool, g.2) := by
  unfold Pool.engage engage
  rw [worker?_pool h]
  rcases hw : f.worker? r with - | w
  · by_cases hroom : 0 < room
    · simp [hroom, pool_hire h]
    · simp [hroom]
  · cases hc : w.closed with
    | false => simp [hc]
    | true =>
      have hhire : ((f.dismiss r).hire r).pool = (f.pool.dismiss r).hire f.now r := by
        rw [pool_hire (crewed_dismiss h hw hc), pool_dismiss h]
        rfl
      simpa [hc] using hhire.symm

theorem pool_give (h : Crewed f.crew f.table) (r : Int) (es : List ε) :
    (f.give r es).pool = f.pool.give r es := by
  unfold give Pool.give
  rw [worker?_pool h]
  rcases hw : f.worker? r with - | w
  · rfl
  · obtain ⟨i, hi, hwi⟩ := worker?_eq_some_iff.mp hw
    have hwr := h.recipient_eq (mem_of_lookup hi) hwi
    rcases hput : w.put es with rejected | w'
    · simp only [hput]
      rfl
    · have hwr' : w'.recipient = r := by rw [(Worker.put_eq_ok hput).2, ← hwr]
      simp only [hput, setWorker, hi]
      exact pool_set h (mem_of_lookup hi) hwr'

/-! ### What happens, as the pool sees it -/

theorem depot_proceed (h : Crewed f.crew f.table) (p : Pass ε) :
    (f.proceed p).depot = f.depot.proceed p := by
  unfold proceed Depot.proceed
  rcases hhand : p.handoff with - | hand
  · rcases hleft : p.left with - | ⟨r, left⟩ <;> rfl
  · have hgive := pool_give h hand.recipient hand.entries
    have hengage := pool_engage h p.room hand.recipient
    -- the two parts of a hand-over: entries are given, or a worker is engaged for them
    cases hengaged : hand.engaged with
    | true =>
      obtain ⟨waiting, crew, hframe⟩ := f.give_frame hand.recipient hand.entries
      rw [hframe] at hgive
      simp only [hengaged, if_true, hframe]
      exact depot_eq hgive rfl rfl rfl rfl rfl
    | false =>
      simp only [hengaged]
      rcases hg : f.engage p.room hand.recipient with - | ⟨g, room⟩
      · rw [hg, Option.map_none] at hengage
        have hnone : f.depot.pool.engage p.room f.depot.now hand.recipient = none := hengage
        simp only [hnone]
        rfl
      · obtain ⟨crew, table, rfl⟩ := engage_frame hg
        rw [hg, Option.map_some] at hengage
        have hsome : f.depot.pool.engage p.room f.depot.now hand.recipient = _ := hengage
        simp only [hsome]
        rfl

variable (book : Nat → Int → Entry π → ε)

theorem depot_begin (h : Crewed f.crew f.table) (order : List Int) :
    (f.step book (.begin order)).depot = f.depot.step book (.begin order) := by
  rcases hpass : f.pass with - | p
  · have hroom : f.max - f.sweep.table.length = f.pool.sweep.room := by
      have hsweep : Crewed f.sweep.crew f.sweep.table := by
        have hstep := crewed_step book h (.begin order)
        simpa only [step, hpass] using hstep
      rw [← pool_sweep, Pool.room, length_workers hsweep]
      rfl
    simp only [step, Depot.step, hpass, pass_depot, hroom]
    exact depot_eq (pool_sweep f) rfl rfl rfl rfl rfl
  · simp only [step, Depot.step, hpass, pass_depot]

/-- A worker in the table makes a move. -/
theorem depot_move (h : Crewed f.crew f.table) {r : Int} {i : Nat} (hi : (r, i) ∈ f.table)
    (m : Move) : (f.step book (.move i m)).depot = f.depot.step book (.move r m) := by
  obtain ⟨w, hw, hwr⟩ := h.member r i hi
  have hworker : f.depot.pool.worker? r = some w :=
    (worker?_pool h r).trans (worker?_eq_some_iff.mpr ⟨i, h.keyed.lookup_of_mem hi, hw⟩)
  rcases hmove : w.move? f.stop f.now m with - | w'
  · have hmove' : w.move? f.depot.stop f.depot.now m = none := hmove
    simp only [step, Depot.step, hw, hworker, hmove, hmove']
  · have hmove' : w.move? f.depot.stop f.depot.now m = some w' := hmove
    have hrecipient := (Worker.moves_of_move? hmove).recipient_eq.trans hwr
    simp only [step, Depot.step, hw, hworker, hmove, hmove']
    exact depot_eq (pool_set h hi hrecipient) rfl rfl rfl rfl rfl

/-- A worker that is not in the table does nothing. -/
theorem step_move_of_not_mem (h : Crewed f.crew f.table) {i : Nat} {w : Worker ε}
    (hw : f.crew[i]? = some w) (hi : (w.recipient, i) ∉ f.table) (m : Move) :
    f.step book (.move i m) = f := by
  have hnone : w.move? f.stop f.now m = none := by
    rcases hmove : w.move? f.stop f.now m with - | w'
    · rfl
    · exact absurd (h.known i w hw (Worker.open_of_move? hmove)) hi
  simp only [step, hw, hnone]

/-- The pass under way goes on. -/
theorem depot_pass (h : Crewed f.crew f.table) :
    (f.step book .proceed).depot = f.depot.step book .proceed := by
  rcases hpass : f.pass with - | p
  · simp [step, Depot.step, hpass]
  · simp [step, Depot.step, hpass, depot_proceed h]

theorem depot_clear (f : Fleet ε) : (f.step book .clear).depot = f.depot.step book .clear := by
  by_cases hstop : f.stop = true
  · simp [step, Depot.step, depot, hstop, pool, Pool.clear]
  · simp [step, Depot.step, depot, hstop]

/-- Whatever happens to a fleet is an event of the depot, or nothing. -/
theorem depot_step (h : Crewed f.crew f.table) (e : Event π) :
    ∃ es, (f.step book e).depot = f.depot.run book es := by
  cases e with
  | add r e => exact ⟨[.add r e], rfl⟩
  | begin order => exact ⟨[.begin order], depot_begin book h order⟩
  | proceed => exact ⟨[.proceed], depot_pass book h⟩
  | move i m =>
    rcases hw : f.crew[i]? with - | w
    · exact ⟨[], by simp [step, hw]⟩
    · by_cases hi : (w.recipient, i) ∈ f.table
      · exact ⟨[.move w.recipient m], depot_move book h hi m⟩
      · exact ⟨[], by rw [step_move_of_not_mem book h hw hi, Depot.run_nil]⟩
  | clear => exact ⟨[.clear], depot_clear book f⟩
  | signal raised => exact ⟨[.signal raised], rfl⟩
  | elapse ms => exact ⟨[.elapse ms], rfl⟩

/-- Whatever happens to a depot can happen to the fleet behind it. -/
theorem step_depot (h : Crewed f.crew f.table) (e : Delivery.Event π) :
    ∃ es, f.depot.step book e = (f.run book es).depot := by
  -- a worker that the depot moves is the one that the table holds
  cases e with
  | add r e => exact ⟨[.add r e], rfl⟩
  | begin order => exact ⟨[.begin order], (depot_begin book h order).symm⟩
  | proceed => exact ⟨[.proceed], (depot_pass book h).symm⟩
  | move r m =>
    rcases hi : f.table.lookup r with - | i
    · have hnone : f.depot.pool.worker? r = none := by
        refine (worker?_pool h r).trans ?_
        rw [worker?, hi]
        rfl
      exact ⟨[], by simp [Depot.step, hnone]⟩
    · exact ⟨[.move i m], (depot_move book h (mem_of_lookup hi) m).symm⟩
  | clear => exact ⟨[.clear], (depot_clear book f).symm⟩
  | signal raised => exact ⟨[.signal raised], rfl⟩
  | elapse ms => exact ⟨[.elapse ms], rfl⟩

/-! ### Runs -/

theorem run_concat (f : Fleet ε) (events : List (Event π)) (e : Event π) :
    f.run book (events ++ [e]) = (f.run book events).step book e := by
  rw [run_append, run_cons, run_nil]

/-- In every run the open workers are in the table, and the table keeps to its bound. -/
theorem crewed_run (max period : Nat) (events : List (Event π)) :
    Crewed ((start max period).run book events).crew ((start max period).run book events).table ∧
      ((start max period).run book events).Fits ∧
      ((start max period).run book events).max = max := by
  induction events using List.reverseRecOn with
  | nil =>
    refine ⟨⟨keyed_nil, ?_, ?_, ?_⟩, Nat.zero_le _, rfl⟩
    · intro r i hi
      exact absurd hi List.not_mem_nil
    · intro i w hw
      exact absurd hw (by simp [start])
    · intro w hw
      exact absurd hw List.not_mem_nil
  | append_singleton events e ih =>
    obtain ⟨hcrewed, hfits, hmax⟩ := ih
    rw [run_concat]
    obtain ⟨hfits', hmax'⟩ := room_step book hfits e
    exact ⟨crewed_step book hcrewed e, hfits', hmax'.trans hmax⟩

/-- The pool sees of a fleet's run a run of a depot. -/
theorem depot_run (max period : Nat) (events : List (Event π)) :
    ∃ es, ((start max period).run book events).depot = (Depot.start max period).run book es := by
  induction events using List.reverseRecOn with
  | nil => exact ⟨[], rfl⟩
  | append_singleton events e ih =>
    obtain ⟨es, hes⟩ := ih
    obtain ⟨later, hlater⟩ := depot_step book (crewed_run book max period events).1 e
    exact ⟨es ++ later, by rw [run_concat, hlater, hes, Depot.run_append]⟩

/-- Behind every run of a depot there is a fleet. -/
theorem exists_fleet (max period : Nat) (es : List (Delivery.Event π)) :
    ∃ events, ((start max period).run book events).depot =
      (Depot.start max period).run book es := by
  induction es using List.reverseRecOn with
  | nil => exact ⟨[], rfl⟩
  | append_singleton es e ih =>
    obtain ⟨events, hevents⟩ := ih
    obtain ⟨later, hlater⟩ := step_depot book (crewed_run book max period events).1 e
    exact ⟨events ++ later, by rw [run_append, ← hlater, hevents, Depot.run_concat]⟩

/-! ### Who is at work -/

/-- At most `max` workers are at work, each for a recipient of its own.

* `live_le`: of all workers that were ever started, at most `max` are open.
* `place_eq`: no two open workers are for one recipient.
* `lookup_eq`: an open worker is the one that the table holds for its recipient.
* `call_eq`: no two workers have calls to one recipient under way.
* `move_eq`: no two workers of one recipient can do anything. -/
structure Exclusive (max : Nat) (f : Fleet ε) : Prop where
  live_le : f.live ≤ max
  place_eq : ∀ (i j : Nat) (v w : Worker ε), f.crew[i]? = some v → f.crew[j]? = some w →
    v.closed = false → w.closed = false → v.recipient = w.recipient → i = j
  lookup_eq : ∀ (i : Nat) (w : Worker ε), f.crew[i]? = some w → w.closed = false →
    f.table.lookup w.recipient = some i
  call_eq : ∀ (i j : Nat) (v w : Worker ε), f.crew[i]? = some v → f.crew[j]? = some w →
    v.inHand.isSome → w.inHand.isSome → v.recipient = w.recipient → i = j
  move_eq : ∀ (i j : Nat) (v w : Worker ε) (m m' : Move), f.crew[i]? = some v →
    f.crew[j]? = some w → (v.move? f.stop f.now m).isSome → (w.move? f.stop f.now m').isSome →
    v.recipient = w.recipient → i = j

/-- What is in the table for its recipient is there once. -/
theorem exclusive_of_crewed {max : Nat} (h : Crewed f.crew f.table)
    (hlength : f.table.length ≤ max) : f.Exclusive max := by
  have hlookup : ∀ (i : Nat) (w : Worker ε), f.crew[i]? = some w → w.closed = false →
      f.table.lookup w.recipient = some i :=
    -- two open workers for one recipient would be at one place of the table
    fun i w hw hopen => h.keyed.lookup_of_mem (h.known i w hw hopen)
  have hplace : ∀ (i j : Nat) (v w : Worker ε), f.crew[i]? = some v → f.crew[j]? = some w →
      v.closed = false → w.closed = false → v.recipient = w.recipient → i = j := by
    intro i j v w hv hw hvopen hwopen hvw
    have hi := hlookup i v hv hvopen
    rw [hvw, hlookup j w hw hwopen] at hi
    exact (Option.some.inj hi).symm
  refine ⟨Nat.le_trans h.countP_le hlength, hplace, hlookup, ?_, ?_⟩
  · intro i j v w hv hw hvcall hwcall hvw
    -- a call is under way for open workers only
    have hopen : ∀ (k : Nat) (u : Worker ε), f.crew[k]? = some u → u.inHand.isSome →
        u.closed = false := by
      intro k u hu hcall
      obtain ⟨x, hx⟩ := Option.isSome_iff_exists.mp hcall
      exact (h.tidy u (List.mem_of_getElem? hu) x hx).1
    exact hplace i j v w hv hw (hopen i v hv hvcall) (hopen j w hw hwcall) hvw
  · intro i j v w m m' hv hw hvmove hwmove hvw
    obtain ⟨v', hv'⟩ := Option.isSome_iff_exists.mp hvmove
    obtain ⟨w', hw'⟩ := Option.isSome_iff_exists.mp hwmove
    exact hplace i j v w hv hw (Worker.open_of_move? hv') (Worker.open_of_move? hw') hvw

omit [Deliverable ε] in
theorem length_table_le {max : Nat} (h : f.Fits) (hmax : f.max = max) : f.table.length ≤ max :=
  hmax ▸ Nat.le_trans (Nat.le_add_right _ _) h

/-- **At most `max` workers are open, each for a recipient of its own.**  In every run, whatever
comes in, in which order the passes serve the recipients, and whenever workers move and close, this
is so at every moment, of all workers that were ever started.  What the pool sees of the run is a
run of a depot. -/
theorem exclusive_run (max period : Nat) (events : List (Event π)) :
    ((start max period).run book events).Exclusive max ∧
      ∃ es, ((start max period).run book events).depot = (Depot.start max period).run book es := by
  obtain ⟨hcrewed, hfits, hmax⟩ := crewed_run book max period events
  exact ⟨exclusive_of_crewed hcrewed (length_table_le hfits hmax), depot_run book max period events⟩

/-- The worker in the table closes by itself while entries are on their way to it, and a new one
takes its place at the next pass: two workers were started for the recipient, one of them is
open. -/
example :
    let f := (start 1 1000 : Fleet (Entry Nat)).run bare
      [.add 7 ⟨[.new 10 3], true⟩, .begin [7], .proceed, .proceed, .elapse 1000, .move 0 .tick,
        .proceed, .proceed, .begin [7], .proceed, .proceed]
    f.crew.map Worker.closed = [true, false] ∧ f.table = [(7, 1)] ∧ f.live = 1 := by
  decide

end Fleet

/-! ### The dispatcher -/

namespace Dispatcher

variable {σ : Type} {max period now : Nat} {d : Dispatcher σ}

/-- Where a run has come to, there are not more workers than there may be. -/
theorem IsRun.length_workers_le (h : IsRun max period now d) : d.pool.workers.length ≤ max := by
  obtain ⟨es, hfollows⟩ := h
  obtain ⟨events, hevents⟩ := Fleet.exists_fleet bare max period es
  obtain ⟨hcrewed, hfits, hmax⟩ := Fleet.crewed_run bare max period events
  have hpool := hfollows.pool
  rw [← hevents] at hpool
  rw [← hpool]
  exact Nat.le_trans (Nat.le_of_eq (Fleet.length_workers hcrewed))
    (Fleet.length_table_le hfits hmax)

/-- There are never more workers in the pool of a dispatcher than there may be. -/
theorem Reachable.length_workers_le [Sender σ Parcel] (h : Reachable max period now d) :
    d.pool.workers.length ≤ max :=
  h.isRun.length_workers_le

/-! ### Without workers -/

theorem attempts_take (received : List Received) (d : Dispatcher σ) :
    (d.take now received).1.attempts = d.attempts := by
  induction received generalizing d with
  | nil => rfl
  | cons r rest ih =>
    cases r with
    | closed => rfl
    | missed n => exact ih _
    | envelope text =>
      simp only [take, accept]
      rcases readEnvelope d.maxRetry text with e | ⟨recipient, e⟩
      · exact ih _
      · exact ih _

/-- The loops make no attempts. -/
theorem attempts_runLoop (d : Dispatcher σ) (loop : Loop × Bool) :
    (d.runLoop now loop).1.attempts = d.attempts := by
  unfold runLoop
  split
  · rfl
  · split
    · rfl
    · split <;> rfl
  · split
    · rfl
    · dsimp only
      split
      · exact attempts_take _ _
      · exact attempts_take _ _

theorem attempts_runLoops (loops : List (Loop × Bool)) (d : Dispatcher σ) :
    (d.runLoops now loops).1.attempts = d.attempts := by
  induction loops generalizing d with
  | nil => rfl
  | cons loop loops ih => exact (ih _).trans (d.attempts_runLoop loop)

variable [Sender σ Parcel]

/-- Without workers, nothing is done by them. -/
theorem IsRun.attempts_settleWorkers (h : IsRun 0 period now d) :
    (d.settleWorkers now).attempts = d.attempts := by
  have hnone : d.pool.workers = [] :=
    List.eq_nil_of_length_eq_zero (Nat.le_zero.mp h.length_workers_le)
  rw [Dispatcher.settleWorkers, hnone]
  rfl

theorem IsRun.attempts_settle (h : IsRun 0 period now d) :
    (d.settle now).attempts = d.attempts := by
  have hloops : IsRun 0 period now ((d.settleWorkers now).settleLoops now) :=
    (h.settleWorkers.runLoops _).congr rfl rfl rfl
  exact hloops.attempts_settleWorkers.trans
    ((attempts_runLoops _ _).trans h.attempts_settleWorkers)

/-- A pool that may have no workers makes no attempt, whatever happens. -/
theorem Reachable.attempts_eq_nil (h : Reachable 0 period now d) : d.attempts = [] := by
  induction h with
  | new hpool hsignal hreports => rw [attempts, hreports]; rfl
  | add h r e ih => exact ih
  | reconcile h ih => exact ih
  | startPool h ih => exact ih
  | subscribe h ih => exact ih
  | publish h text ih => exact ih
  | setSignal h value ih => exact ih
  | dropSignal h ih => exact ih
  | settle h ih => exact h.isRun.attempts_settle.trans ih
  | wait h ms ih => exact ih

end Dispatcher

end Courier.Delivery

import Courier.Delivery.Dispatcher
import Courier.Proofs.Delivery.Lines

/-!
The dispatcher runs a depot.

The dispatcher makes one of the many orders of events that a `Depot` allows: workers come to rest
one after the other, then the loops do what is due, then the workers again.  Whatever happens to a
dispatcher, its pool is that of a run of the bare entries, and its attempts are the calls that are
over by the log of that run (`Dispatcher.Reachable.isRun`).  What holds of every run of a depot
therefore holds of every dispatcher.

The proof follows the loops of the dispatcher.  A worker comes to rest by moves
(`Depot.run_settle`), by induction on its steps; workers come to rest one after the other
(`Depot.run_workers`), by induction on the workers, of which those before the current one have been
settled and those behind it have not.  For this the workers of the pool have to be told apart by
their recipients (`Pool.Distinct.setWorker_eq`).  `IsRun` is what all of it keeps: there is a run of
a depot whose pool, signal, clock and attempts are those of the dispatcher.  One lemma for each
thing that a dispatcher does extends the run by the events that it stands for.

Theorems about tracked entries are brought over by forgetting what they carry
(`Dispatcher.Reachable.exists_tracked`).
-/

namespace Courier.Delivery

variable {ε π σ : Type}

/-! ### Workers in a pool -/

namespace Pool

theorem Distinct.worker?_of_mem {p : Pool ε} (h : p.Distinct) {w : Worker ε} (hw : w ∈ p.workers) :
    p.worker? w.recipient = some w := by
  have key : ∀ ws : List (Worker ε), (ws.map Worker.recipient).Nodup → w ∈ ws →
      (ws.find? fun v => v.recipient = w.recipient) = some w := by
    intro ws hws hmem
    induction ws with
    | nil => exact absurd hmem List.not_mem_nil
    | cons v ws ih =>
      simp only [List.map_cons, List.nodup_cons] at hws
      rcases List.mem_cons.mp hmem with rfl | hmem
      · simp
      · have hne : v.recipient ≠ w.recipient := fun hvw =>
          hws.1 (hvw ▸ List.mem_map_of_mem hmem)
        simpa [hne] using ih hws.2 hmem
  exact key p.workers h.workers hw

/-- Only the worker in its place is replaced. -/
theorem Distinct.setWorker_eq {p : Pool ε} (h : p.Distinct) {before ws : List (Worker ε)}
    {w w' : Worker ε} (hp : p.workers = before ++ w :: ws) (hw : w'.recipient = w.recipient) :
    p.setWorker w' = { p with workers := before ++ w' :: ws } := by
  have hnodup := h.workers
  rw [hp, List.map_append, List.map_cons, List.nodup_append, List.nodup_cons] at hnodup
  obtain ⟨-, ⟨hws, -⟩, hbefore⟩ := hnodup
  have hkeep : ∀ vs : List (Worker ε), w.recipient ∉ vs.map Worker.recipient →
      (vs.map fun v => if v.recipient = w.recipient then w' else v) = vs := by
    intro vs hvs
    refine (List.map_congr_left fun v hv => ?_).trans (List.map_id vs)
    rw [if_neg fun hvw : v.recipient = w.recipient => hvs (hvw ▸ List.mem_map_of_mem hv)]
    rfl
  have hbefore' : w.recipient ∉ before.map Worker.recipient :=
    fun hmem => hbefore _ hmem _ List.mem_cons_self rfl
  rw [Pool.setWorker, hp, hw, List.map_append, List.map_cons, hkeep _ hbefore', hkeep _ hws,
    if_pos rfl]

theorem Distinct.setWorker_self {p : Pool ε} (h : p.Distinct) {w : Worker ε}
    (hw : w ∈ p.workers) : p.setWorker w = p := by
  obtain ⟨before, ws, hp⟩ := List.append_of_mem hw
  rw [h.setWorker_eq hp rfl, ← hp]

theorem setWorker_setWorker (p : Pool ε) {w v : Worker ε} (h : v.recipient = w.recipient) :
    (p.setWorker w).setWorker v = p.setWorker v := by
  simp only [setWorker, List.map_map]
  congr 1
  refine List.map_congr_left fun u _ => ?_
  by_cases hu : u.recipient = w.recipient <;> simp [hu, h]

end Pool

theorem Bay.Reachable.tidy [Deliverable ε] {book : Nat → Int → Entry π → ε} {r : Int} {b : Bay ε}
    {log : Log ε} (h : Reachable book r b log) {w : Worker ε} (hw : b.worker = some w) :
    w.Tidy := by
  induction h generalizing w with
  | start => cases hw
  | step h hstep ih =>
    cases hstep with
    | sweep => cases hw
    | engage =>
      obtain rfl := Option.some.inj hw
      exact Worker.tidy_new r _ _
    | give hv hput =>
      obtain rfl := Option.some.inj hw
      exact (ih hv).put hput
    | move hv hmove =>
      obtain rfl := Option.some.inj hw
      exact (Worker.moves_of_move? hmove).tidy
    | add | other | withdraw | requeue | clear | signal | elapse | stay => exact ih hw

/-! ### Workers come to rest -/

namespace Depot

/-- A worker comes to rest by moves. -/
theorem run_settle [Sender σ π] {t : Depot (Entry π)} {l : Line σ π} {stop : Bool} {now : Nat}
    (hstop : t.stop = stop) (hnow : t.now = now) (hdistinct : t.pool.Distinct)
    (hmem : l.worker ∈ t.pool.workers) (htidy : l.worker.Tidy) :
    (l.settle stop now).worker.recipient = l.worker.recipient ∧
    ∃ events ds, t.run bare events = { t with
        pool := t.pool.setWorker (l.settle stop now).worker, log := ds ++ t.log } ∧
      (l.settle stop now).attempts = Log.attempts ds ++ l.attempts := by
  fun_induction Line.settle stop now l generalizing t with
  | case1 l hnone =>
    -- the worker is at rest
    refine ⟨rfl, [], [], ?_, rfl⟩
    rw [run_nil, hdistinct.setWorker_self hmem]
    rfl
  | case2 l l' hstep ih =>
    -- a step makes a call and leaves the worker as it is, or is a move
    rcases Line.step?_eq_some htidy hstep with ⟨hworker, hattempts⟩ | ⟨m, hmove, hattempts, -⟩
    · rw [hworker, hattempts] at ih
      exact ih hstop hnow hdistinct hmem htidy
    · -- the move, and what comes after it
      have hmoves := Worker.moves_of_move? hmove
      have hrecipient := hmoves.recipient_eq
      obtain ⟨before, ws, hp⟩ := List.append_of_mem hmem
      have hset := hdistinct.setWorker_eq hp hrecipient
      have hrun : t.step bare (.move l.worker.recipient m) = { t with
          pool := t.pool.setWorker l'.worker, log := l.worker.deeds now m ++ t.log } := by
        simp only [step, hdistinct.worker?_of_mem hmem, hstop, hnow, hmove]
      have hmem' : l'.worker ∈ (t.pool.setWorker l'.worker).workers := by
        rw [hset]
        exact List.mem_append_right _ List.mem_cons_self
      obtain ⟨hrecipient', events, ds, hevents, hlog⟩ := ih
        (t := { t with pool := t.pool.setWorker l'.worker, log := l.worker.deeds now m ++ t.log })
        hstop hnow (hdistinct.setWorker _) hmem' hmoves.tidy
      refine ⟨hrecipient'.trans hrecipient, .move l.worker.recipient m :: events,
        ds ++ l.worker.deeds now m, ?_, ?_⟩
      · rw [run_cons, hrun, hevents, Pool.setWorker_setWorker _ hrecipient', List.append_assoc]
      · rw [hlog, hattempts, Log.attempts_append, List.append_assoc]

end Depot

/-! ### The dispatcher -/

theorem Dispatcher.attempts_append (d : Dispatcher σ) {d' : Dispatcher σ} {now : Nat}
    {as : List (Attempt Parcel)}
    (h : d'.reports = as.map (fun a => (now, .attempt a)) ++ d.reports) :
    d'.attempts = as ++ d.attempts := by
  rw [attempts, h, List.filterMap_append, List.filterMap_map]
  exact congrArg (· ++ d.attempts) List.filterMap_some

namespace Depot

/-- The pool of a depot is that of a dispatcher, no pass is under way, and the attempts that the
dispatcher reports are the calls that are over. -/
structure Follows (t : Depot (Entry Parcel)) (now : Nat) (d : Dispatcher σ) : Prop where
  pool : t.pool = d.pool
  pass : t.pass = none
  stop : t.stop = d.signal.raised
  now : t.now = now
  attempts : Log.attempts t.log = d.attempts

/-- Workers come to rest one after the other. -/
theorem run_workers [Sender σ Parcel] {now : Nat} (ws : List (Worker (Entry Parcel)))
    (d : Dispatcher σ) (t : Depot (Entry Parcel)) (before : List (Worker (Entry Parcel)))
    (hp : t.pool.workers = before ++ ws) (hdistinct : t.pool.Distinct) (htidy : ∀ w ∈ ws, w.Tidy)
    (hstop : t.stop = d.signal.raised) (hnow : t.now = now) :
    (d.runWorkers now ws).1.pool = d.pool ∧ (d.runWorkers now ws).1.signal = d.signal ∧
    ∃ events ds, t.run bare events = { t with
        pool := { t.pool with workers := before ++ (d.runWorkers now ws).2 }, log := ds ++ t.log } ∧
      (d.runWorkers now ws).1.attempts = Log.attempts ds ++ d.attempts := by
  -- by induction on the workers that have not come to rest yet
  induction ws generalizing d t before with
  | nil =>
    refine ⟨rfl, rfl, [], [], ?_, rfl⟩
    rw [run_nil, Dispatcher.runWorkers, ← hp]
    rfl
  | cons w ws ih =>
    obtain ⟨hrecipient, events, ds, hrun, hattempts⟩ := run_settle (l := d.line w) hstop hnow
      hdistinct (hp ▸ List.mem_append_right _ List.mem_cons_self) (htidy w List.mem_cons_self)
    have hset := hdistinct.setWorker_eq hp hrecipient
    have hdistinct' := hdistinct.setWorker ((d.line w).settle d.signal.raised now).worker
    rw [hset] at hrun hdistinct'
    simp only [Dispatcher.runWorkers]
    generalize (d.line w).settle d.signal.raised now = l at *
    -- the dispatcher and the depot when the first worker has come to rest
    let d' : Dispatcher σ := { d with
      sender := l.sender
      calls := (l.call.toList.map fun c => (w.recipient, c)) ++
        d.calls.filter fun c => c.1 ≠ w.recipient
      reports := l.attempts.map (fun a => (now, .attempt a)) ++ d.reports }
    have hd' : d'.attempts = Log.attempts ds ++ d.attempts := by
      have hl : l.attempts = Log.attempts ds := hattempts.trans (List.append_nil _)
      rw [← hl]
      exact d.attempts_append rfl
    obtain ⟨hpool, hsignal, later, ds', hlater, hattempts'⟩ := ih d'
      { t with pool := { t.pool with workers := before ++ l.worker :: ws }, log := ds ++ t.log }
      (before ++ [l.worker]) (by simp) hdistinct' (fun v hv => htidy v (List.mem_cons_of_mem _ hv))
      hstop hnow
    refine ⟨hpool, hsignal, events ++ later, ds' ++ ds, ?_, ?_⟩
    · rw [run_append, hrun, hlater, List.append_assoc, List.append_assoc]
      rfl
    · rw [hattempts', hd', Log.attempts_append, List.append_assoc]

/-- Workers of a run are in order. -/
theorem tidy_run (max period : Nat) (events : List (Event π)) :
    ∀ w ∈ ((start max period).run bare events).pool.workers, w.Tidy := by
  intro w hw
  have hworker := (distinct_run bare max period events).worker?_of_mem hw
  exact (bay_reachable bare max period events w.recipient).tidy hworker

end Depot

namespace Dispatcher

/-- The dispatcher is where a run of the bare entries has come to. -/
def IsRun (max period now : Nat) (d : Dispatcher σ) : Prop :=
  ∃ events, ((Depot.start max period).run bare events).Follows now d

variable {max period now now' : Nat} {d d' : Dispatcher σ}

/-- What a dispatcher does is what a depot can do, from wherever a run has come to. -/
theorem IsRun.onward (h : IsRun max period now d)
    (hstep : ∀ t : Depot (Entry Parcel), t.pool.Distinct → (∀ w ∈ t.pool.workers, w.Tidy) →
      t.Follows now d → ∃ later, (t.run bare later).Follows now' d') :
    IsRun max period now' d' := by
  obtain ⟨events, hfollows⟩ := h
  obtain ⟨later, hlater⟩ := hstep _ (Depot.distinct_run bare max period events)
    (Depot.tidy_run max period events) hfollows
  refine ⟨events ++ later, ?_⟩
  rw [Depot.run_append]
  exact hlater

/-- Other parts of the dispatcher do not matter. -/
theorem IsRun.congr (h : IsRun max period now d) (hpool : d'.pool = d.pool)
    (hsignal : d'.signal = d.signal) (hattempts : d'.attempts = d.attempts) :
    IsRun max period now d' := by
  obtain ⟨events, hfollows⟩ := h
  refine ⟨events, hfollows.pool.trans hpool.symm, hfollows.pass, ?_, hfollows.now,
    hfollows.attempts.trans hattempts.symm⟩
  rw [hsignal]
  exact hfollows.stop

theorem IsRun.add (h : IsRun max period now d) (r : Int) (e : Entry Parcel) :
    IsRun max period now (d.add r e) := by
  refine h.onward fun t _ _ hfollows => ⟨[.add r e], ?_⟩
  rw [Depot.run_cons, Depot.run_nil]
  refine ⟨congrArg (·.add r e) hfollows.pool, hfollows.pass, hfollows.stop, hfollows.now, ?_⟩
  exact hfollows.attempts

theorem IsRun.reconcile (h : IsRun max period now d) :
    IsRun max period now (d.reconcile now) := by
  refine h.onward fun t _ _ hfollows => ?_
  obtain ⟨n, hn⟩ := Depot.run_pass bare t (Waiting.recipients t.pool.waiting) hfollows.pass
  refine ⟨.begin (Waiting.recipients t.pool.waiting) :: List.replicate n .proceed, ?_⟩
  rw [hn]
  refine ⟨?_, hfollows.pass, hfollows.stop, hfollows.now, hfollows.attempts⟩
  simp only [hfollows.now, hfollows.pool]
  rfl

theorem IsRun.clear (h : IsRun max period now d) (hstop : d.signal.raised = true) :
    IsRun max period now { d with pool := d.pool.clear } := by
  refine h.onward fun t _ _ hfollows => ⟨[.clear], ?_⟩
  have hraised : t.stop = true := hfollows.stop.trans hstop
  rw [Depot.run_cons, Depot.run_nil]
  simp only [Depot.step, hraised, if_true]
  refine ⟨congrArg Pool.clear hfollows.pool, hfollows.pass, hstop.symm ▸ rfl, hfollows.now, ?_⟩
  rw [Log.attempts_append, hfollows.attempts, Log.attempts_eq_nil, List.nil_append]
  · rfl
  · intro a ha o ht
    obtain ⟨slot, -, ha⟩ := List.mem_flatMap.mp ha
    obtain ⟨x, -, rfl⟩ := List.mem_map.mp ha
    cases ht

theorem IsRun.signal (h : IsRun max period now d) (hpool : d'.pool = d.pool)
    (hreports : d'.reports = d.reports) : IsRun max period now d' := by
  refine h.onward fun t _ _ hfollows => ⟨[.signal d'.signal.raised], ?_⟩
  refine ⟨hfollows.pool.trans hpool.symm, hfollows.pass, rfl, hfollows.now, ?_⟩
  rw [attempts, hreports]
  exact hfollows.attempts

theorem IsRun.wait (h : IsRun max period now d) (ms : Nat) :
    IsRun max period (now + ms) d := by
  refine h.onward fun t _ _ hfollows => ⟨[.elapse ms], ?_⟩
  exact ⟨hfollows.pool, hfollows.pass, hfollows.stop, congrArg (· + ms) hfollows.now,
    hfollows.attempts⟩

theorem IsRun.settleWorkers [Sender σ Parcel] (h : IsRun max period now d) :
    IsRun max period now (d.settleWorkers now) := by
  refine h.onward fun t hdistinct htidy hfollows => ?_
  have hpool := hfollows.pool
  rw [hpool] at hdistinct htidy
  obtain ⟨hpool', hsignal, events, ds, hrun, hattempts⟩ := Depot.run_workers d.pool.workers d t []
    (by rw [hpool, List.nil_append]) (hpool ▸ hdistinct) htidy hfollows.stop hfollows.now
  refine ⟨events, ?_⟩
  rw [hrun]
  refine ⟨?_, hfollows.pass, ?_, hfollows.now, ?_⟩
  · have hset : (d.settleWorkers now).pool =
        { (d.runWorkers now d.pool.workers).1.pool with
          workers := (d.runWorkers now d.pool.workers).2 } := rfl
    rw [hset, hpool', hpool, List.nil_append]
  · exact hfollows.stop.trans (congrArg Signal.raised hsignal.symm)
  · rw [Log.attempts_append, hfollows.attempts]
    exact hattempts.symm

/-! ### The loops -/

theorem IsRun.take (received : List Received) (h : IsRun max period now d) :
    IsRun max period now (d.take now received).1 := by
  induction received generalizing d with
  | nil => exact h
  | cons r rest ih =>
    cases r with
    | closed => exact h
    | missed n => exact ih (h.congr rfl rfl rfl)
    | envelope text =>
      simp only [Dispatcher.take, accept]
      rcases readEnvelope d.maxRetry text with e | ⟨recipient, e⟩
      · exact ih (h.congr rfl rfl rfl)
      · exact ih (h.add recipient e)

theorem IsRun.runLoop (h : IsRun max period now d) (loop : Loop × Bool) :
    -- the loop of the pool clears it under the signal, and makes a pass at a tick
    IsRun max period now (d.runLoop now loop).1 := by
  unfold Dispatcher.runLoop
  split
  · exact h
  · split
    · rename_i hstop
      exact h.clear hstop
    · split
      · exact h.reconcile
      · exact h
  · split
    · exact h.congr rfl rfl rfl
    · -- what the subscriber reads is added, or reported
      rename_i reader _
      have htake : IsRun max period now
          (Dispatcher.take now { d with bus := (d.bus.receive reader).2 }
            (d.bus.receive reader).1).1 := IsRun.take _ (h.congr rfl rfl rfl)
      dsimp only
      split
      · exact htake.congr rfl rfl rfl
      · exact htake

theorem IsRun.runLoops (loops : List (Loop × Bool)) (h : IsRun max period now d) :
    IsRun max period now (d.runLoops now loops).1 := by
  induction loops generalizing d with
  | nil => exact h
  | cons loop loops ih => exact ih (h.runLoop loop)

theorem IsRun.settle [Sender σ Parcel] (h : IsRun max period now d) :
    IsRun max period now (d.settle now) := by
  have hloops : IsRun max period now ((d.settleWorkers now).settleLoops now) :=
    (h.settleWorkers.runLoops _).congr rfl rfl rfl
  exact hloops.settleWorkers

/-! ### Whatever happens -/

/-- The dispatchers that can come to be seen, with the time: whatever is done to a dispatcher from
outside, and however time passes. -/
inductive Reachable [Sender σ Parcel] (max period : Nat) : Nat → Dispatcher σ → Prop
  | new {d : Dispatcher σ} (hpool : d.pool = { max, period }) (hsignal : d.signal = {})
      (hreports : d.reports = []) : Reachable max period 0 d
  | add {now : Nat} {d : Dispatcher σ} (h : Reachable max period now d) (r : Int)
      (e : Entry Parcel) : Reachable max period now (d.add r e)
  | reconcile {now : Nat} {d : Dispatcher σ} (h : Reachable max period now d) :
      Reachable max period now (d.reconcile now)
  | startPool {now : Nat} {d : Dispatcher σ} (h : Reachable max period now d) :
      Reachable max period now (d.startPool now)
  | subscribe {now : Nat} {d : Dispatcher σ} (h : Reachable max period now d) :
      Reachable max period now d.subscribe
  | publish {now : Nat} {d : Dispatcher σ} (h : Reachable max period now d) (text : String) :
      Reachable max period now (d.publishText text).2
  | setSignal {now : Nat} {d : Dispatcher σ} (h : Reachable max period now d) (value : Bool) :
      Reachable max period now (d.setSignal value)
  | dropSignal {now : Nat} {d : Dispatcher σ} (h : Reachable max period now d) :
      Reachable max period now d.dropSignal
  | settle {d : Dispatcher σ} {m : Time.Moment} (h : Reachable max period m.elapsed d) :
      Reachable max period m.elapsed (Time.Timed.settle m d)
  | wait {now : Nat} {d : Dispatcher σ} (h : Reachable max period now d) (ms : Nat) :
      Reachable max period (now + ms) d

variable [Sender σ Parcel]

/-- **The dispatcher runs a depot.**  Whatever happens to a dispatcher, its pool is that of a run of
the bare entries, and the attempts that it reports are the calls that are over by the log of this
run. -/
theorem Reachable.isRun (h : Reachable max period now d) : IsRun max period now d := by
  induction h with
  | @new d hpool hsignal hreports =>
    refine ⟨[], hpool.symm, rfl, ?_, rfl, ?_⟩
    · rw [hsignal]
      rfl
    · rw [attempts, hreports]
      rfl
  | add h r e ih => exact ih.add r e
  | reconcile h ih => exact ih.reconcile
  | startPool h ih => exact ih.congr rfl rfl rfl
  | subscribe h ih => exact ih.congr rfl rfl rfl
  | publish h text ih => exact ih.congr rfl rfl rfl
  | setSignal h value ih => exact ih.signal rfl rfl
  | dropSignal h ih => exact ih.signal rfl rfl
  | settle h ih => exact ih.settle
  | wait h ms ih => exact ih.wait ms

/-- The same run with numbers and histories: what holds of tracked entries in every run of a depot
holds of the entries of a dispatcher. -/
theorem Reachable.exists_tracked (h : Reachable max period now d) :
    ∃ events,
      (((Depot.start max period).run Tracked.book events).map Tracked.rest).Follows now d := by
  obtain ⟨events, hfollows⟩ := h.isRun
  refine ⟨events, ?_⟩
  rw [Depot.run_bare]
  exact hfollows

theorem Reachable.waitUntil {m : Time.Moment} (h : Reachable max period m.elapsed d) {t : Nat}
    (ht : m.elapsed ≤ t) : Reachable max period (m.at t).elapsed d := by
  have hwait := h.wait (t - m.elapsed)
  rw [Nat.add_sub_cancel' ht] at hwait
  exact hwait

/-- Time passes from one moment at which the dispatcher acts to the next. -/
theorem Reachable.advanceUntil (done : Dispatcher σ → Bool) (stop : Nat) {m : Time.Moment}
    (h : Reachable max period m.elapsed d) (hm : m.elapsed ≤ stop) :
    Reachable max period (Time.Timed.advanceUntil done stop m d).2.elapsed
      (Time.Timed.advanceUntil done stop m d).1 := by
  fun_induction Time.Timed.advanceUntil done stop m d with
  | case1 m d s hdone => exact h.settle
  | case2 m d s hdone hnone => exact h.settle.waitUntil hm
  | case3 m d s hdone t hnext hlt ih => exact ih (h.settle.waitUntil (Nat.le_of_lt hlt.1)) hlt.2
  | case4 m d s hdone t hnext hlt => exact h.settle.waitUntil hm

end Dispatcher

end Courier.Delivery

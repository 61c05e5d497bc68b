import Courier.Delivery.Log
import Courier.Proofs.Delivery.Capacity
import Courier.Proofs.Delivery.Throttle
import Courier.Proofs.Message.RoundTrip
import Courier.Proofs.Routing.Runs
import Courier.Service

/-!
The service that is launched from a configuration.

Loading checks three periods and nothing else (`Config.validate_eq_ok_iff`), so tickers have them as
they are.  Capacities are not checked: a bus or a channel of a capacity that its constructor refuses
cannot be made, and then there is no service (`Service.launch_eq_ok_iff`).  In particular a channel
without room is refused.  Memory is not modelled: a bus that the constructor takes may still be too
large for the machine, so a service of this model is one for which the memory is there.

That the service has no more workers than it may have is not proved anew.  A service only settles its
dispatcher and publishes on its bus, so what holds of every dispatcher that can come to be seen holds
in a run of the service (`Service.reachable_run`), and the dispatcher has its own theorems.  The
invariant is `Delivery.Dispatcher.Reachable`: settling keeps it (`Service.reachable_settle`), and an
edit of the catalog does not touch the dispatcher (`Service.dispatcher_editCatalog`).

Main statement: what becomes of a configuration that has been loaded (`Config.launches_of_load`).
The witness is a configuration that passes the check and of which no service can be started
(`Config.launches_of_load_roomless`).
-/

namespace Courier

open Time Delivery

/-! ### Loading -/

namespace Config

/-- Just the configurations whose periods are positive are accepted. -/
theorem validate_eq_ok_iff {c c' : Config} :
    c.validate = .ok c' ↔ c = c' ∧ 0 < c.scheduler.syncIntervalSecs ∧
      0 < c.dispatch.tickMillis ∧ 0 < c.dispatch.workerPeriodSecs := by
  have hfind : c.periods.find? (fun p => p.2 == 0) = none ↔ 0 < c.scheduler.syncIntervalSecs ∧
      0 < c.dispatch.tickMillis ∧ 0 < c.dispatch.workerPeriodSecs := by
    simp [periods, Nat.pos_iff_ne_zero]
  rw [← hfind, validate]
  generalize c.periods.find? (fun p => p.2 == 0) = found
  cases found <;> simp

/-- What is loaded has been accepted. -/
theorem validate_of_load {home file : Option String} {environment : List (String × String)}
    {c : Config} (h : load home file environment = .ok c) : c.validate = .ok c := by
  have haccepted {c' : Config} (h : c'.validate = .ok c) : c.validate = .ok c := by
    obtain ⟨rfl, -⟩ := validate_eq_ok_iff.mp h
    exact h
  unfold load at h
  -- without a file there are the defaults and the environment
  rcases file with - | text
  · simp only [pure_bind] at h
    split at h
    · cases h
    · exact haccepted h
  · rcases hparse : Toml.parse? text with - | s
    · simp only [hparse] at h
      cases h
    · simp only [hparse, pure_bind] at h
      split at h
      · cases h
      · exact haccepted h

end Config

/-! ### The loop of the scheduler -/

/-- After the first pass, the loop of the scheduler has a ticker of the interval, unless it is too
short. -/
theorem Scheduler.Keeper.period_of_begin {κ μ : Type} [TaskQueue κ] {k : Keeper κ μ} {now : Nat}
    {first : Except SchedulerError SyncReport} {t : Ticker}
    (h : (k.begin now first).phase = .resting t) :
    t.period = Max.max Ticker.leastPeriod (Max.max leastInterval k.interval) := by
  unfold begin at h
  cases first with
  | error e => cases h
  | ok report =>
    dsimp only at h
    split at h
    · cases h
    · cases h
      rfl

/-! ### The dispatcher of a service -/

namespace Service

open Scheduler

variable {σ : Type} [Sender σ Parcel] {max period now : Nat} {s : Service σ}

/-- Messages reach the dispatcher through the bus. -/
theorem reachable_publishAll (ms : List Message) (h : s.dispatcher.Reachable max period now) :
    (s.publishAll ms).dispatcher.Reachable max period now := by
  induction ms generalizing s with
  | nil => exact h
  | cons m ms ih =>
    exact ih (s := { s with dispatcher := (s.dispatcher.publishText m.text).2 }) (h.publish m.text)

theorem reachable_routeAll (m : Moment) (ts : List QueuedTask)
    (h : s.dispatcher.Reachable max period now) :
    (s.routeAll m ts).dispatcher.Reachable max period now := by
  induction ts generalizing s with
  | nil => exact h
  | cons t ts ih =>
    -- to route a task is to publish what it says at once, if anything
    have hroute : (s.route t m).2.dispatcher.Reachable max period now := by
      rw [route_eq]
      exact reachable_publishAll _ h
    rw [routeAll]
    rcases hverdict : s.route t m with ⟨e | v, s'⟩
    · rw [hverdict] at hroute
      exact ih (s := { s' with incidents := (m.elapsed, .taskDropped t.name e) :: s'.incidents })
        hroute
    · rw [hverdict] at hroute
      exact ih hroute

theorem reachable_settle {m : Moment} (h : s.dispatcher.Reachable max period m.elapsed) :
    (s.settle m).dispatcher.Reachable max period m.elapsed := by
  have hwaiting : ((({ s with dispatcher := s.dispatcher.settle m.elapsed } :
      Service σ).settleKeeper m).settleWaiting m).dispatcher.Reachable max period m.elapsed := by
    rw [settleWaiting_eq]
    exact reachable_publishAll _ h.settle
  have hrouting {s : Service σ} (h : s.dispatcher.Reachable max period m.elapsed) :
      (s.settleRouting m).dispatcher.Reachable max period m.elapsed := by
    unfold settleRouting
    -- what has come out of the channel is routed, unless the router has ended
    split
    · split
      · exact h
      · dsimp only
        split
        · exact reachable_routeAll m _ h
        · exact reachable_routeAll m _ h
    · exact h
  exact (hrouting hwaiting).settle

/-- Time passes from one moment at which the service acts to the next. -/
theorem reachable_advanceUntil (stop : Nat) {m : Moment}
    (h : s.dispatcher.Reachable max period m.elapsed) (hm : m.elapsed ≤ stop) :
    (Timed.advanceUntil (fun _ => false) stop m s).1.dispatcher.Reachable max period stop := by
  fun_induction Timed.advanceUntil (fun _ => false) stop m s with
  | case1 m s s' hdone => cases hdone
  | case2 m s s' hdone hnone => exact (reachable_settle h).waitUntil hm
  | case3 m s s' hdone t hnext hlt ih =>
    exact ih ((reachable_settle h).waitUntil (Nat.le_of_lt hlt.1)) hlt.2
  | case4 m s s' hdone t hnext hlt => exact (reachable_settle h).waitUntil hm

theorem reachable_pass {c : Clocked (Service σ)}
    (h : c.system.dispatcher.Reachable max period c.moment.elapsed) (ms : Nat) :
    (c.pass ms).system.dispatcher.Reachable max period (c.pass ms).moment.elapsed :=
  reachable_advanceUntil _ h (Nat.le_add_right _ _)

omit [Sender σ Parcel] in
theorem dispatcher_editCatalog (s : Service σ) (edit : Catalog → Except SchedulerError Catalog) :
    (s.editCatalog edit).dispatcher = s.dispatcher := by
  unfold editCatalog
  split <;> rfl

/-- However long the service runs, with whatever edits, its dispatcher is one that can come to be
seen. -/
theorem reachable_run (stop : Nat) (edits : List (Nat × (Catalog → Except SchedulerError Catalog)))
    {c : Clocked (Service σ)}
    (h : c.system.dispatcher.Reachable max period c.moment.elapsed) :
    (run stop c edits).system.dispatcher.Reachable max period (run stop c edits).moment.elapsed := by
  induction edits generalizing c with
  | nil => exact reachable_pass h _
  | cons e edits ih =>
    refine ih ?_
    have hpass := reachable_pass h (e.1 - c.moment.elapsed)
    rw [Clocked.modify, dispatcher_editCatalog]
    exact hpass

/-! ### Launching -/

omit [Sender σ Parcel] in
/-- A service is launched just if the constructors of its bus and its channel take their
capacities. -/
theorem launch_eq_ok_iff {config : Config} {catalog : Catalog} {sender : σ} :
    launch config catalog sender = .ok s ↔ config.dispatch.busCapacity < bound63 ∧
      0 < config.scheduler.queueCapacity ∧
      config.scheduler.queueCapacity ≤ Channel.greatestCapacity ∧
      start config catalog sender (.new (Max.max config.dispatch.busCapacity 1))
        { capacity := config.scheduler.queueCapacity } = s := by
  have hbus : bound63 ≤ Max.max config.dispatch.busCapacity 1 ↔
      ¬ config.dispatch.busCapacity < bound63 := by
    have hone : 1 < bound63 := by decide
    omega
  -- zero is no capacity of a channel, and neither is one above its greatest
  have hchannel : (config.scheduler.queueCapacity = 0 ∨
      Channel.greatestCapacity < config.scheduler.queueCapacity) ↔
      ¬ (0 < config.scheduler.queueCapacity ∧
        config.scheduler.queueCapacity ≤ Channel.greatestCapacity) := by
    omega
  simp only [launch, Bus.new?, Channel.new?, hbus, hchannel]
  by_cases hb : config.dispatch.busCapacity < bound63
  · by_cases hc : 0 < config.scheduler.queueCapacity ∧
        config.scheduler.queueCapacity ≤ Channel.greatestCapacity
    · simp [hb, hc]
    · simp only [hb, hc, not_true_eq_false, not_false_eq_true, if_true, if_false, true_and,
        reduceCtorEq, false_iff]
      exact fun h => hc ⟨h.1, h.2.1⟩
  · simp [hb]

/-- What a service has is what the configuration asks for.

* `channel`: the channel of fired tasks has room.
* `bus`: the bus has room.
* `syncing`: the time between two synchronisations.
* `passing`: the time between two passes of the pool. -/
structure Equipped (config : Config) (s : Service σ) : Prop where
  channel : s.channel.capacity = config.scheduler.queueCapacity ∧ 0 < s.channel.capacity
  bus : 0 < s.dispatcher.bus.capacity
  syncing (now : Nat) (first : Except SchedulerError SyncReport) (t : Ticker) :
    (s.keeper.begin now first).phase = .resting t →
      t.period = 1000 * config.scheduler.syncIntervalSecs
  passing (t : Ticker) (ended : Bool) : (.pool t, ended) ∈ s.dispatcher.loops →
    t.period = config.dispatch.tickMillis

variable {config : Config} {catalog : Catalog} {sender : σ}

omit [Sender σ Parcel] in
/-- A service that is launched with positive periods has what the configuration asks for. -/
theorem equipped_of_launch (hsync : 0 < config.scheduler.syncIntervalSecs)
    (htick : 0 < config.dispatch.tickMillis) (h : launch config catalog sender = .ok s) :
    s.Equipped config := by
  obtain ⟨-, hcapacity, -, rfl⟩ := launch_eq_ok_iff.mp h
  refine ⟨⟨rfl, hcapacity⟩, Message.capacity_new_pos _, fun now first t hphase => ?_,
    fun t ended hloop => ?_⟩
  · -- a second is the least interval, so the interval is not raised
    have hinterval : Max.max Ticker.leastPeriod
        (Max.max leastInterval (1000 * config.scheduler.syncIntervalSecs)) =
          1000 * config.scheduler.syncIntervalSecs := by
      simp only [Ticker.leastPeriod, leastInterval]
      omega
    rw [Keeper.period_of_begin hphase]
    exact hinterval
  · have hpool : (Loop.pool t, ended) = (.pool (.atOnce config.dispatch.tickMillis 0), false) := by
      simpa [start, Dispatcher.startPool, Dispatcher.subscribe] using hloop
    cases hpool
    exact Nat.max_eq_right htick

/-- The dispatcher of a service that has just been launched. -/
theorem reachable_of_launch (h : launch config catalog sender = .ok s) :
    s.dispatcher.Reachable config.dispatch.maxWorkers (1000 * config.dispatch.workerPeriodSecs) 0 := by
  obtain ⟨-, -, -, rfl⟩ := launch_eq_ok_iff.mp h
  exact ((Dispatcher.Reachable.new rfl rfl rfl).startPool).subscribe

end Service

/-! ### What a loaded configuration comes to -/

/-- What holds of the workers of a dispatcher: how many there are, how far apart the ticks of each
are, and what is done when there may be none. -/
structure Delivery.Dispatcher.Staffed {σ : Type} (max period : Nat) (d : Dispatcher σ) : Prop where
  count : d.pool.workers.length ≤ max
  pace : ∀ w ∈ d.pool.workers, w.ticker.period = period
  idle : max = 0 → d.attempts = []

/-- Workers have the period of their pool. -/
theorem Delivery.Dispatcher.Reachable.paced {σ : Type} [Sender σ Parcel] {max period now : Nat}
    {d : Dispatcher σ} (h : d.Reachable max period now) :
    Paced (Max.max Ticker.leastPeriod period) d.pool := by
  obtain ⟨events, hfollows⟩ := h.isRun
  rw [← hfollows.pool]
  exact Depot.paced_run bare max period events

theorem Delivery.Dispatcher.Reachable.staffed {σ : Type} [Sender σ Parcel] {max period now : Nat}
    {d : Dispatcher σ} (h : d.Reachable max period now) (hperiod : 0 < period) :
    d.Staffed max period := by
  refine ⟨h.length_workers_le, fun w hw => ?_, ?_⟩
  · rw [h.paced.workers w hw]
    exact Nat.max_eq_right hperiod
  · rintro rfl
    exact h.attempts_eq_nil

namespace Config

/-- What becomes of a configuration.

* `periods`: the periods are positive.
* `unchecked`: whatever else is set is accepted as well.
* `launched`: there is a service just if the constructors take both capacities: the channel has room,
  and neither is too large in itself.  Whether there is memory for so much is not modelled.
* `equipped`: the service has what the configuration asks for.
* `staffed`: however long the service runs, it has no more workers than it may have. -/
structure Launches (σ : Type) [Sender σ Parcel] (config : Config) : Prop where
  periods : 0 < config.scheduler.syncIntervalSecs ∧ 0 < config.dispatch.tickMillis ∧
    0 < config.dispatch.workerPeriodSecs
  unchecked (other : Config) : other.periods = config.periods → other.validate = .ok other
  launched (catalog : Catalog) (sender : σ) :
    (∃ s, Service.launch config catalog sender = .ok s) ↔
      config.dispatch.busCapacity < bound63 ∧ 0 < config.scheduler.queueCapacity ∧
        config.scheduler.queueCapacity ≤ Channel.greatestCapacity
  equipped {catalog : Catalog} {sender : σ} {s : Service σ} :
    Service.launch config catalog sender = .ok s → s.Equipped config
  staffed {catalog : Catalog} {sender : σ} {s : Service σ} :
    Service.launch config catalog sender = .ok s →
      ∀ (wall : Instant) (stop : Nat)
        (edits : List (Nat × (Catalog → Except SchedulerError Catalog))),
        (Service.run stop ⟨s, ⟨0, wall⟩⟩ edits).system.dispatcher.Staffed
          config.dispatch.maxWorkers (1000 * config.dispatch.workerPeriodSecs)

/-- **A configuration that has been loaded.**  The periods are positive, the bus has room, and
tickers and workers get the periods as they are.  But capacities have not been checked: the channel
has room only if room has been asked for, and otherwise there is no service; and if no workers have
been asked for, nothing is delivered, however long the service runs.  Memory is not modelled: where
the constructors take the capacities, the machine may still have no room for what they ask for. -/
theorem launches_of_load {σ : Type} [Sender σ Parcel] {home file : Option String}
    {environment : List (String × String)} {config : Config}
    (h : load home file environment = .ok config) : config.Launches σ := by
  obtain ⟨-, hsync, htick, hperiod⟩ := validate_eq_ok_iff.mp (validate_of_load h)
  refine ⟨⟨hsync, htick, hperiod⟩, fun other hother => ?_, fun catalog sender => ?_,
    Service.equipped_of_launch hsync htick, fun {catalog sender s} hlaunch wall stop edits => ?_⟩
  · -- the check looks at nothing but the periods
    simp only [Config.periods, List.cons.injEq, Prod.mk.injEq, true_and, and_true] at hother
    obtain ⟨hsync', htick', hperiod'⟩ := hother
    rw [validate_eq_ok_iff, hsync', htick', hperiod']
    exact ⟨rfl, hsync, htick, hperiod⟩
  · -- there is a service just if both constructors take their capacities
    constructor
    · rintro ⟨s, hs⟩
      obtain ⟨hbus, hroom, hgreatest, -⟩ := Service.launch_eq_ok_iff.mp hs
      exact ⟨hbus, hroom, hgreatest⟩
    · rintro ⟨hbus, hroom, hgreatest⟩
      exact ⟨_, Service.launch_eq_ok_iff.mpr ⟨hbus, hroom, hgreatest, rfl⟩⟩
  · -- the dispatcher in a run is one that can come to be, which has its own bounds
    have hrun := Service.reachable_run stop edits (c := ⟨s, ⟨0, wall⟩⟩)
      (Service.reachable_of_launch hlaunch)
    exact hrun.staffed (Nat.mul_pos (by decide) hperiod)

/-- A configuration that asks for a channel without room and a pool without workers. -/
def roomless : Config :=
  { defaults none with
    scheduler := { queueCapacity := 0 }
    dispatch := { maxWorkers := 0 } }

/-- The variables that ask for it. -/
def roomlessVariables : List (String × String) :=
  [("HERALD_SCHEDULER__QUEUE_CAPACITY", "0"), ("HERALD_DISPATCH__MAX_WORKERS", "0")]

/-- It can be loaded, and there is no service of it. -/
theorem launches_of_load_roomless :
    load none none roomlessVariables = .ok roomless ∧ roomless.Launches LogSender ∧
      ¬ ∃ s, Service.launch roomless .empty LogSender.mk = .ok s := by
  have hload : load none none roomlessVariables = .ok roomless := by
    have hsome : (load none none roomlessVariables).toOption = some roomless := by decide +kernel
    generalize load none none roomlessVariables = loaded at hsome ⊢
    cases loaded with
    | error e => cases hsome
    | ok c => exact congrArg Except.ok (Option.some.inj hsome)
  have hlaunches : roomless.Launches LogSender := launches_of_load hload
  refine ⟨hload, hlaunches, fun hs => ?_⟩
  exact absurd ((hlaunches.launched .empty .mk).mp hs).2.1 (Nat.lt_irrefl 0)

end Config

end Courier

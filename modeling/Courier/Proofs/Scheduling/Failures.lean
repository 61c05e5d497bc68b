import Courier.Proofs.Scheduling.Booking
import Courier.Scheduler.Keeper.Settle
import Courier.Scheduler.Recorder
import Courier.Scheduler.Roster

/-!
What is left when something fails.

Three things can fail: reading the jobs, removing an entry, and registering one.

`Feed.Breaks` says how reading can fail: a row cannot be read, or not all rows have come in time.
This is all that can happen (`Feed.read_eq_error_iff`).  While jobs are read the table is locked
(`Keeper.Meanwhile`): other things may happen to the keeper, but its registrations and the calls
that it has made stay what they were (`Locked`), and a pass whose reading has failed stops before
its first call (`Aborted`).

What a refused call does is up to the queue.  A queue whose refused calls have no effect is
`Steadfast`, seen through a `view` that may leave out what does not matter, such as a record of the
calls.  The recorder and the crontab are (`steadfast_recorder`, `steadfast_daemon`).  What an
operation leaves there after a refusal depends only on which call has been refused.

Main statement: reading that fails changes nothing and is reported, a refused removal changes
nothing, and a refused registration leaves the job without registration and entry and the others as
they were (`failures_contained`).
-/

namespace Courier

open Time

/-! ### Reading that fails -/

namespace Feed

/-- The time that some rows take to come. -/
def span : List (Nat × Job) → Nat
  | [] => 0
  | row :: rows => row.1 + span rows

/-- Rows that can be read, as items of a feed. -/
def good (rows : List (Nat × Job)) : List (Nat × Except SchedulerError Job) :=
  rows.map fun row => (row.1, .ok row.2)

/-- How reading a feed fails: after how long, and with which error.

* `failed`: after some good rows there comes one in time that cannot be read.
* `late`: after some good rows the next one comes too late, whatever it is.
* `endless`: all rows are good, but their end does not come. -/
inductive Breaks (f : Feed) (timeout : Nat) : Nat → SchedulerError → Prop
  | failed {rows : List (Nat × Job)} {wait : Nat} {e : SchedulerError}
      {rest : List (Nat × Except SchedulerError Job)}
      (hitems : f.items = good rows ++ (wait, .error e) :: rest)
      (hwait : span rows + wait ≤ timeout) : Breaks f timeout (span rows + wait) e
  | late {rows : List (Nat × Job)} {wait : Nat} {item : Except SchedulerError Job}
      {rest : List (Nat × Except SchedulerError Job)}
      (hitems : f.items = good rows ++ (wait, item) :: rest)
      (hwait : timeout < span rows + wait) : Breaks f timeout timeout (.timeout (timeout / 1000))
  | endless {rows : List (Nat × Job)} (hitems : f.items = good rows) (hendless : f.endless = true) :
      Breaks f timeout timeout (.timeout (timeout / 1000))

variable {deadline timeout now : Nat} {endless : Bool}

/-- Good rows that come in time are read, and then the rest. -/
theorem readFrom_good {rows : List (Nat × Job)} (hrows : now + span rows ≤ deadline)
    (rest : List (Nat × Except SchedulerError Job)) :
    readFrom deadline timeout endless now (good rows ++ rest) =
      ((readFrom deadline timeout endless (now + span rows) rest).1,
        (readFrom deadline timeout endless (now + span rows) rest).2.map
          (rows.map Prod.snd ++ ·)) := by
  induction rows generalizing now with
  | nil =>
    generalize hread : readFrom deadline timeout endless now rest = read
    obtain ⟨stop, e | jobs⟩ := read <;> simp [good, span, hread, Except.map]
  | cons row rows ih =>
    obtain ⟨wait, j⟩ := row
    have hrows' : now + wait + span rows ≤ deadline := by
      rw [Nat.add_assoc]
      exact hrows
    have hintime : ¬ deadline < now + wait :=
      Nat.not_lt.mpr (Nat.le_trans (Nat.le_add_right _ _) hrows')
    have hspan : now + span ((wait, j) :: rows) = now + wait + span rows :=
      (Nat.add_assoc now wait (span rows)).symm
    show readFrom deadline timeout endless now ((wait, .ok j) :: (good rows ++ rest)) = _
    rw [readFrom, if_neg hintime, hspan]
    simp only [ih hrows']
    generalize readFrom deadline timeout endless (now + wait + span rows) rest = read
    obtain ⟨stop, e | jobs⟩ := read <;> rfl

/-- Rows of which one comes too late are not read to their end. -/
theorem readFrom_late {rows : List (Nat × Job)} {wait : Nat} {item : Except SchedulerError Job}
    (hwait : deadline < now + (span rows + wait))
    (rest : List (Nat × Except SchedulerError Job)) :
    readFrom deadline timeout endless now (good rows ++ (wait, item) :: rest) =
      (deadline, .error (.timeout (timeout / 1000))) := by
  induction rows generalizing now with
  | nil =>
    have hlate : deadline < now + wait := by simpa [span] using hwait
    exact if_pos hlate
  | cons row rows ih =>
    obtain ⟨before, j⟩ := row
    show readFrom deadline timeout endless now
      ((before, .ok j) :: (good rows ++ (wait, item) :: rest)) = _
    rw [readFrom]
    -- an earlier row may come too late already
    split_ifs with hlate
    · rfl
    · have hwait' : deadline < now + before + (span rows + wait) := by
        simpa only [span, Nat.add_assoc] using hwait
      simp only [ih hwait']
      rfl

/-- Rows without an end are not read to their end. -/
theorem readFrom_endless (rows : List (Nat × Job)) :
    readFrom deadline timeout true now (good rows) =
      (deadline, .error (.timeout (timeout / 1000))) := by
  induction rows generalizing now with
  | nil => rfl
  | cons row rows ih =>
    obtain ⟨wait, j⟩ := row
    show readFrom deadline timeout true now ((wait, .ok j) :: good rows) = _
    rw [readFrom]
    split_ifs with hlate
    · rfl
    · simp only [ih]
      rfl

/-- Reading that fails ends with the error. -/
theorem Breaks.read {f : Feed} {after : Nat} {e : SchedulerError} (h : f.Breaks timeout after e)
    (now : Nat) : f.read now timeout = (now + after, .error e) := by
  unfold Feed.read
  cases h with
  | @failed rows wait e rest hitems hwait =>
    have hrows : now + span rows ≤ now + timeout := by omega
    have hintime : ¬ now + timeout < now + span rows + wait := by omega
    rw [hitems, readFrom_good hrows, readFrom, if_neg hintime, Nat.add_assoc]
    rfl
  | late hitems hwait =>
    rw [hitems]
    exact readFrom_late (by omega) _
  | endless hitems hendless =>
    rw [hitems, hendless]
    exact readFrom_endless _

theorem span_append (rows rows' : List (Nat × Job)) :
    span (rows ++ rows') = span rows + span rows' := by
  induction rows with
  | nil => exact (Nat.zero_add _).symm
  | cons row rows ih => simp only [List.cons_append, span, ih, Nat.add_assoc]

theorem breaks_of_readFrom {f : Feed} {rows : List (Nat × Job)}
    {items : List (Nat × Except SchedulerError Job)} (hitems : f.items = good rows ++ items)
    {stop : Nat} {e : SchedulerError}
    (h : readFrom (now + timeout) timeout f.endless (now + span rows) items = (stop, .error e)) :
    ∃ after, stop = now + after ∧ f.Breaks timeout after e := by
  -- by induction on what is left to read, with all before it good
  induction items generalizing rows stop with
  | nil =>
    -- the rows are at their end, which may never come
    unfold readFrom at h
    split at h
    · rename_i hendless
      obtain ⟨rfl, he⟩ := Prod.mk.inj h
      obtain rfl := Except.error.inj he
      exact ⟨timeout, rfl, .endless (by simpa using hitems) hendless⟩
    · cases (Prod.mk.inj h).2
  | cons item items ih =>
    obtain ⟨wait, item⟩ := item
    unfold readFrom at h
    -- this row comes too late, cannot be read, or is one more good row
    split at h
    · rename_i hlate
      obtain ⟨rfl, he⟩ := Prod.mk.inj h
      obtain rfl := Except.error.inj he
      exact ⟨timeout, rfl, .late hitems (by omega)⟩
    · rename_i hintime
      rcases item with e' | j
      · obtain ⟨rfl, he⟩ := Prod.mk.inj h
        obtain rfl := Except.error.inj he
        exact ⟨span rows + wait, Nat.add_assoc _ _ _, .failed hitems (by omega)⟩
      · have hitems' : f.items = good (rows ++ [(wait, j)]) ++ items := by
          simpa [good] using hitems
        have hspan : now + span rows + wait = now + span (rows ++ [(wait, j)]) := by
          rw [span_append, Nat.add_assoc]
          rfl
        rw [hspan] at h
        generalize hread : readFrom (now + timeout) timeout f.endless
          (now + span (rows ++ [(wait, j)])) items = read at h
        obtain ⟨stop', e' | jobs⟩ := read
        · obtain ⟨rfl, he⟩ := Prod.mk.inj h
          obtain rfl := Except.error.inj he
          exact ih hitems' hread
        · cases (Prod.mk.inj h).2

/-- Reading fails in no other way. -/
theorem read_eq_error_iff {f : Feed} {stop : Nat} {e : SchedulerError} :
    f.read now timeout = (stop, .error e) ↔
      ∃ after, stop = now + after ∧ f.Breaks timeout after e := by
  constructor
  · intro h
    have hitems : f.items = good [] ++ f.items := rfl
    exact breaks_of_readFrom hitems h
  · rintro ⟨after, rfl, h⟩
    exact h.read now

end Feed

namespace Scheduler

/-! ### A keeper that reads -/

namespace Keeper

/-! #### The table is locked -/

section Locking

variable {κ μ : Type} [TaskQueue κ]

/-- Whether a keeper has the registrations of another one, and no more calls have been made to its
queue. -/
structure Still (k k' : Keeper (Traced κ) μ) : Prop where
  table : k'.scheduler.table = k.scheduler.table
  calls : k'.scheduler.queue.calls = k.scheduler.queue.calls

/-- What is the case while jobs are read: nothing has been done, and only the loop gives up. -/
structure Locked (k : Keeper (Traced κ) μ) (r : Reading) (k' : Keeper (Traced κ) μ) : Prop where
  still : Still k k'
  reading : k'.reading = some r ∨ k'.reading = none ∧ r.forLoop = true

variable {k k' k'' : Keeper (Traced κ) μ} {r : Reading}

theorem Locked.loopStep? (h : Locked k r k') {now : Nat} (hstep : k'.loopStep? now = some k'') :
    Locked k r k'' := by
  unfold Keeper.loopStep? at hstep
  split at hstep
  · -- the loop gives up its first pass
    split at hstep
    · obtain rfl := Option.some.inj hstep
      refine ⟨⟨h.still.table, h.still.calls⟩, ?_⟩
      rcases h.reading with hreading | ⟨hreading, hloop⟩
      · cases hloop : r.forLoop <;> simp [hreading, hloop]
      · exact .inr ⟨by simp [hreading], hloop⟩
    · cases hstep
  · split at hstep
    · obtain rfl := Option.some.inj hstep
      exact ⟨⟨h.still.table, h.still.calls⟩, h.reading⟩
    · split at hstep
      · obtain rfl := Option.some.inj hstep
        exact ⟨⟨h.still.table, h.still.calls⟩, h.reading⟩
      · cases hstep
  · cases hstep

/-- How a pass ends whose reading has failed.

* `reply`: a caller is told.
* `ended`: the loop does not begin; cancellation counts as an orderly end. -/
structure Aborted (k : Keeper (Traced κ) μ) (r : Reading) (e : SchedulerError)
    (k' : Keeper (Traced κ) μ) : Prop where
  still : Still k k'
  unlocked : k'.reading = none
  reply : r.forLoop = false → k'.reply = some (.report (.error e))
  ended : r.forLoop = true → k.phase = .initial →
    k'.phase = .ended (if e.isCancellation then .ok () else .error e)

/-- Without jobs a pass does nothing but to end. -/
theorem aborted_finishReading {e : SchedulerError} (hjobs : r.jobs = .error e) (m : Moment) :
    Aborted k r e (k.finishReading m r) := by
  unfold finishReading apply
  simp only [hjobs]
  -- the report goes to the caller, or to the loop if this is its first pass
  cases hloop : r.forLoop
  · exact ⟨⟨rfl, rfl⟩, rfl, fun _ => rfl, fun h => (nomatch hloop.symm.trans h)⟩
  · simp only [if_true]
    split
    · exact ⟨⟨rfl, rfl⟩, rfl, fun h => (nomatch hloop.symm.trans h), fun _ _ => rfl⟩
    · rename_i t hphase
      have hne : k.phase ≠ .initial := fun h => nomatch hphase.symm.trans h
      exact ⟨⟨rfl, rfl⟩, rfl, fun h => (nomatch hloop.symm.trans h), fun _ h => absurd h hne⟩
    · rename_i hphase _
      exact ⟨⟨rfl, rfl⟩, rfl, fun h => (nomatch hloop.symm.trans h), fun _ h => absurd h hphase⟩

variable [JobSource μ]

omit [TaskQueue κ] in
/-- What will have been read is known as soon as reading begins. -/
theorem reading_beginReading {k : Keeper κ μ} {after : Nat} {e : SchedulerError}
    (h : (JobSource.feed k.source).Breaks k.timeout after e) (now : Nat) (forLoop : Bool) :
    (k.beginReading now forLoop).reading = some ⟨forLoop, now + after, .error e⟩ := by
  simp [beginReading, h.read now]

/-- While jobs are read the table is not used. -/
theorem Locked.step? (h : Locked k r k') {r' : Reading} {m : Moment}
    (hreading : k'.reading = some r') (hm : m.elapsed < r'.stop)
    (hstep : k'.step? m = some k'') : Locked k r k'' := by
  unfold Keeper.step? at hstep
  split at hstep
  · rename_i hloop
    obtain rfl := Option.some.inj hstep
    exact h.loopStep? hloop
  · unfold tableStep? at hstep
    simp only [hreading, Nat.not_le.mpr hm, if_false] at hstep
    cases hstep

/-- What can become of a keeper while its jobs are read: time passes, its queue works, and others
change the source, raise the signal and wait for the table. -/
inductive Meanwhile (k : Keeper κ μ) : Keeper κ μ → Prop
  | begun : Meanwhile k k
  | step {k' k'' : Keeper κ μ} {r : Reading} {m : Moment} (h : Meanwhile k k')
      (hreading : k'.reading = some r) (hm : m.elapsed < r.stop) (hstep : k'.step? m = some k'') :
      Meanwhile k k''
  | work {k' : Keeper κ μ} (h : Meanwhile k k') (m : Moment) :
      Meanwhile k (k'.setQueue (Timed.settle m k'.scheduler.queue))
  | start {k' : Keeper κ μ} (h : Meanwhile k k') : Meanwhile k k'.start
  | setSignal {k' : Keeper κ μ} (h : Meanwhile k k') (signal : Signal) :
      Meanwhile k { k' with signal }
  | setSource {k' : Keeper κ μ} (h : Meanwhile k k') (source : μ) :
      Meanwhile k (k'.setSource source)
  | ask {k' : Keeper κ μ} (h : Meanwhile k k') (request : Option Request) :
      Meanwhile k { k' with request, reply := none }

theorem Meanwhile.locked (h : Meanwhile k k') (hreading : k.reading = some r) : Locked k r k' := by
  induction h with
  | begun => exact ⟨⟨rfl, rfl⟩, .inl hreading⟩
  | step h hr hm hstep ih => exact ih.step? hr hm hstep
  | work h m ih => exact ⟨⟨ih.still.table, ih.still.calls⟩, ih.reading⟩
  | start h ih => exact ⟨⟨ih.still.table, ih.still.calls⟩, ih.reading⟩
  | setSignal h signal ih => exact ⟨⟨ih.still.table, ih.still.calls⟩, ih.reading⟩
  | setSource h source ih => exact ⟨⟨ih.still.table, ih.still.calls⟩, ih.reading⟩
  | ask h request ih => exact ⟨⟨ih.still.table, ih.still.calls⟩, ih.reading⟩

/-- What is the case while jobs are read that cannot be read to their end: when reading is over, the
pass ends with the error. -/
structure Failing (k : Keeper (Traced κ) μ) (r : Reading) (e : SchedulerError)
    (k' : Keeper (Traced κ) μ) : Prop where
  locked : Locked k r k'
  ended : k'.reading = some r → ∀ m : Moment, r.stop ≤ m.elapsed →
    k'.tableStep? m = some (k'.finishReading m r) ∧ (k'.apply m.wall r.jobs).1 = .error e ∧
      Aborted k' r e (k'.finishReading m r)

theorem Meanwhile.failing {after : Nat} {e : SchedulerError} {now : Nat} {forLoop : Bool}
    (h : Meanwhile (k.beginReading now forLoop) k')
    (hbreaks : (JobSource.feed k.source).Breaks k.timeout after e) :
    Failing k ⟨forLoop, now + after, .error e⟩ e k' := by
  have hlocked := h.locked (reading_beginReading hbreaks now forLoop)
  refine ⟨⟨⟨hlocked.still.table, hlocked.still.calls⟩, hlocked.reading⟩, fun hreading m hm => ?_⟩
  refine ⟨?_, rfl, aborted_finishReading rfl m⟩
  simp only [tableStep?, hreading, hm, if_true]

end Locking

end Keeper

/-! ### Calls that are refused -/

section Refusals

variable {κ σ : Type} [TaskQueue κ]

/-- Whether refused calls have no effect on what is seen of a queue, and a removal that is not
refused removes just its entry from the live ones. -/
structure Steadfast (view : κ → σ) (live : σ → EntryId → Prop) : Prop where
  register : ∀ {q q' : κ} {now : Instant} {expr : String} {task : Task} {options : List TaskOption}
    {e : SchedulerError}, TaskQueue.register q now expr task options = (.error e, q') →
      view q' = view q
  unregister : ∀ {q q' : κ} {n : EntryId} {e : SchedulerError},
    TaskQueue.unregister q n = (.error e, q') → view q' = view q
  removed : ∀ {q q' : κ} {n : EntryId}, TaskQueue.unregister q n = (.ok (), q') →
    ∀ m, live (view q') m ↔ live (view q) m ∧ m ≠ n

/-- How a job is refused: with which error, and what becomes of the queue.  The text of its payload
can always be written. -/
inductive Refusal (q : κ) (now : Instant) (j : Job) : SchedulerError → κ → Prop
  | options {kind : String} {fault : OptionFault}
      (h : TaskOption.ofJobOptions j.options = .error (kind, fault)) :
      Refusal q now j (.invalidOption kind fault) q
  | registration {options : List TaskOption} {e : SchedulerError} {q' : κ}
      (hoptions : TaskOption.ofJobOptions j.options = .ok options)
      (h : TaskQueue.register q now j.cron (Task.ofJob j) options = (.error e, q')) :
      Refusal q now j e q'

variable {s : Scheduler κ} {q q' : κ} {r : Registration} {e : SchedulerError}

theorem remove_of_refused {id : String} (hr : s.table.lookup id = some r)
    (hq : TaskQueue.unregister s.queue r.entry = (.error e, q)) :
    s.remove id = (.error (.remove id e), ⟨s.table, q⟩) := by
  simp only [remove, Scheduler.unregister, hr, hq]

theorem remove_of_removed {id : String} (hr : s.table.lookup id = some r)
    (hq : TaskQueue.unregister s.queue r.entry = (.ok (), q)) :
    s.remove id = (.ok (), ⟨Registrations.erase id s.table, q⟩) := by
  simp only [remove, Scheduler.unregister, hr, hq]

theorem Refusal.register {now : Instant} {j : Job} (h : Refusal s.queue now j e q') :
    s.register now j = (.error e, ⟨s.table, q'⟩) := by
  unfold Scheduler.register
  cases h with
  | options h => simp only [h]
  | registration hoptions h => simp only [hoptions, h]

theorem Refusal.view_eq {view : κ → σ} {live : σ → EntryId → Prop}
    (hsteadfast : Steadfast view live) {now : Instant} {j : Job} (h : Refusal q now j e q') :
    view q' = view q := by
  cases h with
  | options h => rfl
  | registration hoptions h => exact hsteadfast.register h

/-- An addition ends with a refused removal. -/
theorem add_of_refused {j : Job} (now : Instant) (hr : s.table.lookup j.id = some r)
    (hq : TaskQueue.unregister s.queue r.entry = (.error e, q)) :
    s.add now j = (.error (.remove j.id e), ⟨s.table, q⟩) := by
  simp only [add, remove_of_refused hr hq]

/-- An addition whose registration is refused has removed the old one. -/
theorem add_of_refusal {now : Instant} {j : Job} (hr : s.table.lookup j.id = some r)
    (hq : TaskQueue.unregister s.queue r.entry = (.ok (), q)) (hj : j.schedulable = true)
    (hrefusal : Refusal q now j e q') :
    s.add now j =
      (.error (.register j.id e), ⟨Registrations.erase j.id s.table, q'⟩) := by
  have hregister := Refusal.register (s := ⟨Registrations.erase j.id s.table, q⟩) hrefusal
  simp only [add, remove_of_removed hr hq, hj, if_true, hregister]

end Refusals

/-! ### Recorders, daemons and rosters -/

/-- The entries of a recorder stay when a call is refused. -/
theorem steadfast_recorder : Steadfast Recorder.live fun entries n => n ∈ entries where
  register := by
    intro q q' now expr task options e h
    replace h : q.register expr task options = (.error e, q') := h
    unfold Recorder.register at h
    dsimp only at h
    -- a refusal does not add an entry
    split at h
    · exact (congrArg Recorder.live (Prod.mk.inj h).2).symm
    · split at h
      · exact (congrArg Recorder.live (Prod.mk.inj h).2).symm
      · cases (Prod.mk.inj h).1
  unregister := by
    intro q q' n e h
    replace h : q.unregister n = (.error e, q') := h
    unfold Recorder.unregister at h
    dsimp only at h
    split at h
    · exact (congrArg Recorder.live (Prod.mk.inj h).2).symm
    · split at h
      · cases (Prod.mk.inj h).1
      · exact (congrArg Recorder.live (Prod.mk.inj h).2).symm
  removed := by
    intro q q' n h m
    replace h : q.unregister n = (.ok (), q') := h
    unfold Recorder.unregister at h
    dsimp only at h
    split at h
    · cases (Prod.mk.inj h).1
    · split at h
      · rw [← (Prod.mk.inj h).2]
        simp
      · cases (Prod.mk.inj h).1

/-- A daemon stays as it is when a call is refused. -/
theorem steadfast_daemon :
    Steadfast (id : Crontab.Daemon → Crontab.Daemon)
      fun d n => (d.crontab.entries.lookup n).isSome where
  register := by
    intro d d' now expr task options e h
    rcases d.crontab.register_cases now expr task options with ⟨e', he, -⟩ | ⟨entry, hok, -⟩
    · rw [Crontab.Daemon.register_eq_of_error he] at h
      exact (Prod.mk.inj h).2.symm
    · rw [Crontab.Daemon.register_eq_of_ok hok] at h
      cases (Prod.mk.inj h).1
  unregister := by
    intro d d' n e h
    rcases hc : d.crontab.unregister n with e' | c
    · simp only [TaskQueue.unregister, hc] at h
      exact (Prod.mk.inj h).2.symm
    · rw [Crontab.Daemon.unregister_eq_of_ok hc] at h
      cases (Prod.mk.inj h).1
  removed := by
    intro d d' n h m
    -- only an entry that is there can be removed
    by_cases hlive : (d.crontab.entries.lookup n).isSome
    · have hc : d.crontab.unregister n = .ok { d.crontab with
          entries := d.crontab.entries.filter fun e => e.1 ≠ n } := if_pos hlive
      rw [Crontab.Daemon.unregister_eq_of_ok hc] at h
      rw [← (Prod.mk.inj h).2]
      by_cases hm : m = n <;> simp [hm]
    · have hc : d.crontab.unregister n = .error (.entryNotFound n) := if_neg hlive
      simp only [TaskQueue.unregister, hc] at h
      cases (Prod.mk.inj h).1

/-- A roster that fails after its jobs. -/
theorem breaks_of_brokenAfter (jobs : List Job) (timeout : Nat) :
    (JobSource.feed (⟨jobs, .brokenAfter⟩ : Roster)).Breaks timeout 0
      (.runtime "store offline") := by
  have hspan : ∀ js : List Job, Feed.span (js.map fun j => (0, j)) = 0 := by
    intro js
    induction js with
    | nil => rfl
    | cons j js ih => simp [Feed.span, ih]
  let r : Roster := ⟨jobs, .brokenAfter⟩
  let rows := r.enabled.map fun j => (0, j)
  have hitems : r.feed.items =
      Feed.good rows ++ (0, .error (.runtime "store offline")) :: [] := by
    simp [r, rows, Roster.feed, Feed.good]
  have hbreaks : r.feed.Breaks timeout (Feed.span rows + 0) (.runtime "store offline") :=
    .failed hitems (by simp [rows, hspan])
  rw [hspan] at hbreaks
  exact hbreaks

/-! ### All failures -/

/-- How a scheduler fails.

* `sync`: while jobs are read the registrations stay as they are and no calls are made, and so it is
  when reading has failed.  The error is what comes of the pass; only the loop may give up before.
* `remove`: a refused removal changes nothing.
* `replace`: so it does when it is part of an addition.
* `register`: a refused registration comes after the removal; nothing else is touched. -/
structure Contained {κ σ : Type} [TaskQueue κ] (view : κ → σ) (live : σ → EntryId → Prop)
    (μ : Type) [JobSource μ] : Prop where
  sync : ∀ {k k' : Keeper (Traced κ) μ} {after : Nat} {e : SchedulerError} (now : Nat)
    (forLoop : Bool), (JobSource.feed k.source).Breaks k.timeout after e →
    Keeper.Meanwhile (k.beginReading now forLoop) k' →
      Keeper.Failing k ⟨forLoop, now + after, .error e⟩ e k'
  remove : ∀ {s : Scheduler κ} {id : String} {r : Registration} {e : SchedulerError} {q : κ},
    s.table.lookup id = some r → TaskQueue.unregister s.queue r.entry = (.error e, q) →
      s.remove id = (.error (.remove id e), ⟨s.table, q⟩) ∧ view q = view s.queue
  replace : ∀ {s : Scheduler κ} {j : Job} {r : Registration} {e : SchedulerError} {q : κ}
    (now : Instant), s.table.lookup j.id = some r →
    TaskQueue.unregister s.queue r.entry = (.error e, q) →
      s.add now j = (.error (.remove j.id e), ⟨s.table, q⟩) ∧ view q = view s.queue
  register : ∀ {s : Scheduler κ} {now : Instant} {j : Job} {r : Registration} {e : SchedulerError}
    {q q' : κ}, s.table.lookup j.id = some r →
    TaskQueue.unregister s.queue r.entry = (.ok (), q) → j.schedulable = true →
    Refusal q now j e q' →
      (s.add now j).1 = .error (.register j.id e) ∧
        (s.add now j).2.table.lookup j.id = none ∧
          (∀ id ≠ j.id, (s.add now j).2.table.lookup id = s.table.lookup id) ∧
            ∀ n, live (view (s.add now j).2.queue) n ↔ live (view s.queue) n ∧ n ≠ r.entry

/-- Whatever fails, a scheduler is left in a known state, if its queue is. -/
theorem failures_contained {κ σ : Type} [TaskQueue κ] {view : κ → σ} {live : σ → EntryId → Prop}
    (h : Steadfast view live) (μ : Type) [JobSource μ] : Contained view live μ := by
  constructor
  case sync =>
    intro k k' after e now forLoop hbreaks hmeanwhile
    exact hmeanwhile.failing hbreaks
  case remove =>
    intro s id r e q hr hq
    exact ⟨remove_of_refused hr hq, h.unregister hq⟩
  case replace =>
    intro s j r e q now hr hq
    exact ⟨add_of_refused now hr hq, h.unregister hq⟩
  case register =>
    intro s now j r e q q' hr hq hj hrefusal
    rw [add_of_refusal hr hq hj hrefusal]
    refine ⟨rfl, ?_, ?_, fun n => ?_⟩
    · simp [Registrations.lookup_erase]
    · intro id hid
      simp [Registrations.lookup_erase, hid]
    · show live (view q') n ↔ _
      rw [hrefusal.view_eq h]
      exact h.removed hq n

/-- A recorder with two entries that does not give up the second one and takes no more mail. -/
def stubborn : Recorder :=
  { fresh := 2, live := [0, 1], refusedTasks := ["mail"], refusedEntries := [Recorder.entryName 1] }

/-- A keeper of a stubborn recorder, whose jobs cannot be read to their end. -/
def beset : Keeper (Traced Recorder) Roster where
  scheduler := traced ⟨[("a", ⟨0, ⟨0, 0⟩⟩), ("b", ⟨1, ⟨0, 0⟩⟩)], stubborn⟩
  source := ⟨[.new "a" "mail" "0 0 * * *" ⟨60, 0⟩], .brokenAfter⟩

theorem failures_contained_stubborn :
    Steadfast Recorder.live (fun entries n => n ∈ entries) ∧
      Contained Recorder.live (fun entries n => n ∈ entries) Roster ∧
        (∃ k, (beset.beginReading 5 false).tableStep? ⟨5, ⟨60, 0⟩⟩ = some k ∧
          Keeper.Still beset k ∧ k.reply = some (.report (.error (.runtime "store offline")))) ∧
          (beset.scheduler.bare.remove "b").1 =
            .error (.remove "b" (.runtime "runtime unavailable")) ∧
          (beset.scheduler.bare.add ⟨60, 0⟩ (.new "a" "mail" "0 0 * * *" ⟨60, 0⟩)).1 =
            .error (.register "a" (.runtime "runtime full")) := by
  have h := failures_contained steadfast_recorder Roster
  refine ⟨steadfast_recorder, h, ?_, ?_, ?_⟩
  · have hbreaks : (JobSource.feed beset.source).Breaks beset.timeout 0
        (.runtime "store offline") := breaks_of_brokenAfter _ _
    have hfailing := h.sync 5 false hbreaks .begun
    obtain ⟨hstep, -, haborted⟩ := hfailing.ended
      (Keeper.reading_beginReading hbreaks 5 false) ⟨5, ⟨60, 0⟩⟩ (Nat.le_refl 5)
    exact ⟨_, hstep, ⟨haborted.still.table, haborted.still.calls⟩, haborted.reply rfl⟩
  · have hq : TaskQueue.unregister stubborn 1 =
        (.error (.runtime "runtime unavailable"), { stubborn with unregistered := [1] }) := by
      simp [TaskQueue.unregister, Recorder.unregister, stubborn]
    have hr : beset.scheduler.bare.table.lookup "b" = some ⟨1, ⟨0, 0⟩⟩ := rfl
    exact congrArg Prod.fst (h.remove hr hq).1
  · let j : Job := .new "a" "mail" "0 0 * * *" ⟨60, 0⟩
    have hname : Recorder.entryName 0 ≠ Recorder.entryName 1 := by decide +kernel
    have hq : TaskQueue.unregister stubborn 0 =
        (.ok (), { stubborn with live := [1], unregistered := [0] }) := by
      simp [TaskQueue.unregister, Recorder.unregister, stubborn, hname]
    have hrefusal : Refusal { stubborn with live := [1], unregistered := [0] } ⟨60, 0⟩ j
        (.runtime "runtime full") _ := .registration rfl rfl
    have hr : beset.scheduler.bare.table.lookup j.id = some ⟨0, ⟨0, 0⟩⟩ := rfl
    exact (h.register hr hq (by decide +kernel) hrefusal).1

end Scheduler
end Courier

import Courier.Proofs.Scheduling.Entries
import Courier.Scheduler.Keeper.Settle

/-!
A scheduler at work performs acts.

A `Keeper` reads jobs while time passes, and makes a pass with them when the reading is over.  All
that it does to its scheduler is a run of acts, whatever the queue (`Performs.settle`).  So what
every act of a scheduler keeps holds of a keeper as well, and need not be proved for its steps
again.

What has to be carried along is the reading that goes on: its jobs come from a feed with distinct
ids, also when the source is another one by the time the reading ends (`Performs.reading`).

Main statement: whatever happens to a keeper with a crontab, while it reads or in between, its
registrations and the entries of the crontab belong together (`Reachable.booked`).
-/

namespace Courier.Scheduler.Keeper

open Time

/-! ### Steps are acts -/

section Steps

variable {κ μ : Type} [TaskQueue κ] [JobSource μ]

/-- The keeper has come from a scheduler by acts, and no id comes twice in what is read. -/
structure Performs (s : Scheduler κ) (k : Keeper κ μ) : Prop where
  run : ∃ acts : List Act, (∀ act ∈ acts, act.Distinct) ∧ k.scheduler = s.run acts
  reading : ∀ r, k.reading = some r → ∃ (feed : Feed) (now timeout : Nat),
    r.jobs = (feed.read now timeout).2 ∧ (feed.jobs.map Job.id).Nodup
  source : ((JobSource.feed k.source).jobs.map Job.id).Nodup

namespace Performs

variable {s : Scheduler κ} {k k' : Keeper κ μ}

/-- Where the loop is, and who waits for a reply, does not matter. -/
theorem congr (h : Performs s k) (hscheduler : k'.scheduler = k.scheduler)
    (hreading : ∀ r, k'.reading = some r → k.reading = some r) (hsource : k'.source = k.source) :
    Performs s k' where
  run := by
    rw [hscheduler]
    exact h.run
  reading := fun r hr => h.reading r (hreading r hr)
  source := by
    rw [hsource]
    exact h.source

theorem act (h : Performs s k) (act : Act) (hact : act.Distinct) :
    Performs s { k with scheduler := k.scheduler.perform act } where
  run := by
    obtain ⟨acts, hacts, hrun⟩ := h.run
    refine ⟨acts ++ [act], ?_, ?_⟩
    · intro a ha
      rcases List.mem_append.mp ha with ha | ha
      · exact hacts a ha
      · rw [List.mem_singleton.mp ha]
        exact hact
    · show k.scheduler.perform act = (acts ++ [act]).foldl perform s
      rw [List.foldl_append, hrun]
      rfl
  reading := h.reading
  source := h.source

theorem beginReading (h : Performs s k) (now : Nat) (forLoop : Bool) :
    Performs s (k.beginReading now forLoop) where
  run := h.run
  reading := by
    intro r hr
    obtain rfl := Option.some.inj hr
    exact ⟨JobSource.feed k.source, now, k.timeout, rfl, h.source⟩
  source := h.source

/-- The pass that follows a reading. -/
theorem apply (h : Performs s k) {r : Reading} (hr : k.reading = some r) (wall : Instant) :
    Performs s (k.apply wall r.jobs).2 := by
  obtain ⟨feed, now, timeout, hjobs, hids⟩ := h.reading r hr
  have hpass : (k.apply wall r.jobs).2 =
      { k with reading := none, scheduler := k.scheduler.perform (.sync wall feed now timeout) } := by
    rw [perform, ← hjobs]
    -- a reading that has failed is a pass that changes nothing
    rcases r.jobs with e | jobs
    · rfl
    · rfl
  rw [hpass]
  refine (h.act (.sync wall feed now timeout) hids).congr rfl ?_ rfl
  intro r' hr'
  cases hr'

theorem begin (h : Performs s k) (now : Nat) (report : Except SchedulerError SyncReport) :
    Performs s (k.begin now report) := by
  unfold Keeper.begin
  split
  · exact h.congr rfl (fun _ hr => hr) rfl
  · have hstart := h.act (.start now) trivial
    dsimp only
    split
    · exact hstart.congr rfl (fun _ hr => hr) rfl
    · exact hstart.congr rfl (fun _ hr => hr) rfl

theorem finishReading (h : Performs s k) (m : Moment) {r : Reading} (hr : k.reading = some r) :
    Performs s (k.finishReading m r) := by
  have happly := h.apply hr m.wall
  unfold Keeper.finishReading
  generalize k.apply m.wall r.jobs = applied at happly
  obtain ⟨report, k'⟩ := applied
  dsimp only
  split
  · split
    · exact happly.begin m.elapsed report
    · exact happly.congr rfl (fun _ hr => hr) rfl
    · exact happly
  · exact happly.congr rfl (fun _ hr => hr) rfl

theorem serve (h : Performs s k) (m : Moment) (r : Request) : Performs s (k.serve m r) := by
  have hserved : Performs s { k with request := none } := h.congr rfl (fun _ hr => hr) rfl
  cases r with
  | sync => exact hserved.beginReading m.elapsed false
  | add j => exact (hserved.act (.add m.wall j) trivial).congr rfl (fun _ hr => hr) rfl
  | remove id => exact (hserved.act (.remove id) trivial).congr rfl (fun _ hr => hr) rfl

theorem loopStep? (h : Performs s k) {now : Nat} (hstep : k.loopStep? now = some k') :
    Performs s k' := by
  unfold Keeper.loopStep? at hstep
  split at hstep
  · -- the loop has been told to stop during its first pass
    obtain ⟨-, hstep⟩ := Option.ite_none_right_eq_some.mp hstep
    obtain rfl := Option.some.inj hstep
    -- the loop gives up its own reading, and leaves that of a caller alone
    refine h.congr rfl ?_ rfl
    intro r hr
    dsimp only at hr
    split at hr
    · rename_i r' hr'
      obtain ⟨-, hr⟩ := Option.ite_none_left_eq_some.mp hr
      rw [hr', hr]
    · cases hr
  · split at hstep
    · obtain rfl := Option.some.inj hstep
      exact (h.act .stop trivial).congr rfl (fun _ hr => hr) rfl
    · obtain ⟨-, hstep⟩ := Option.ite_none_right_eq_some.mp hstep
      obtain rfl := Option.some.inj hstep
      exact h.congr rfl (fun _ hr => hr) rfl
  · cases hstep

theorem tableStep? (h : Performs s k) {m : Moment} (hstep : k.tableStep? m = some k') :
    Performs s k' := by
  unfold Keeper.tableStep? at hstep
  -- the table is with a reading first, then with a request, and last with the loop
  split at hstep
  · rename_i r hr
    obtain ⟨-, hstep⟩ := Option.ite_none_right_eq_some.mp hstep
    obtain rfl := Option.some.inj hstep
    exact h.finishReading m hr
  · split at hstep
    · obtain rfl := Option.some.inj hstep
      exact h.serve m _
    · split at hstep
      · obtain rfl := Option.some.inj hstep
        exact h.beginReading m.elapsed true
      · obtain rfl := Option.some.inj hstep
        exact h.beginReading m.elapsed true
      · cases hstep

theorem step? (h : Performs s k) {m : Moment} (hstep : k.step? m = some k') : Performs s k' := by
  unfold Keeper.step? at hstep
  split at hstep
  · rename_i hloop
    obtain rfl := Option.some.inj hstep
    exact h.loopStep? hloop
  · exact h.tableStep? hstep

/-- All that a keeper does at a moment is a run of acts. -/
theorem settle (h : Performs s k) (m : Moment) : Performs s (k.settle m) := by
  fun_induction Keeper.settle m k with
  | case1 k hrest => exact h.act (.work m) trivial
  | case2 k k' hstep ih => exact ih (h.step? hstep)

end Performs

end Steps

/-! ### Keepers of a crontab -/

variable {μ : Type} [JobSource μ]

/-- The keepers that can come to be seen: whatever is done to a keeper from outside, and however
time passes.

* `setSource`: the jobs change, also while they are being read.
* `setChannel`: somebody takes messages from the channel. -/
inductive Reachable : Keeper Crontab.Daemon μ → Prop
  | new {k : Keeper Crontab.Daemon μ} (channel : Channel) (period : Nat)
      (hscheduler : k.scheduler = fresh channel period) (hreading : k.reading = none)
      (hsource : ((JobSource.feed k.source).jobs.map Job.id).Nodup) : Reachable k
  | start {k : Keeper Crontab.Daemon μ} (h : Reachable k) : Reachable k.start
  | setSignal {k : Keeper Crontab.Daemon μ} (h : Reachable k) (signal : Signal) :
      Reachable { k with signal }
  | setSource {k : Keeper Crontab.Daemon μ} (h : Reachable k) (source : μ)
      (hsource : ((JobSource.feed source).jobs.map Job.id).Nodup) : Reachable (k.setSource source)
  | setChannel {k : Keeper Crontab.Daemon μ} (h : Reachable k) (channel : Channel) :
      Reachable (k.setQueue { k.scheduler.queue with channel })
  | ask {k : Keeper Crontab.Daemon μ} (h : Reachable k) (request : Option Request) :
      Reachable { k with request, reply := none }
  | settle {k : Keeper Crontab.Daemon μ} (h : Reachable k) (m : Moment) : Reachable (k.settle m)

/-- A keeper whose registrations and entries belong together keeps them so. -/
theorem Performs.booked {P : Job → Prop} (hP : ∀ j, P j) {s : Scheduler Crontab.Daemon}
    {k : Keeper Crontab.Daemon μ} (h : Performs s k) (hs : Booked P s.table s.queue.crontab) :
    Booked P k.scheduler.table k.scheduler.queue.crontab := by
  obtain ⟨acts, hacts, hrun⟩ := h.run
  have hsound : Sound P s.traced := ⟨hs, by simp⟩
  rw [hrun]
  exact (hsound.run_traced (fun _ _ j _ => hP j) hacts).booked

/-- Whatever happens to a keeper, its registrations and the entries of the crontab belong
together. -/
theorem Reachable.booked {k : Keeper Crontab.Daemon μ} (h : Reachable k) :
    Booked (fun _ => True) k.scheduler.table k.scheduler.queue.crontab := by
  -- what is read stays without a job that comes twice, however the source changes meanwhile
  have key : Booked (fun _ => True) k.scheduler.table k.scheduler.queue.crontab ∧
      Performs k.scheduler k := by
    induction h with
    | @new k channel period hscheduler hreading hsource =>
      refine ⟨?_, ⟨[], by simp, rfl⟩, ?_, hsource⟩
      · rw [hscheduler]
        exact .empty _
      · intro r hr
        rw [hreading] at hr
        cases hr
    | start h ih => exact ⟨ih.1, ih.2.congr rfl (fun _ hr => hr) rfl⟩
    | setSignal h signal ih => exact ⟨ih.1, ih.2.congr rfl (fun _ hr => hr) rfl⟩
    | setSource h source hsource ih => exact ⟨ih.1, ih.2.run, ih.2.reading, hsource⟩
    -- the channel is that of the crontab, and no act
    | setChannel h channel ih => exact ⟨ih.1, ⟨[], by simp, rfl⟩, ih.2.reading, ih.2.source⟩
    | ask h request ih => exact ⟨ih.1, ih.2.congr rfl (fun _ hr => hr) rfl⟩
    | settle h m ih =>
      have hsettled := ih.2.settle m
      exact ⟨hsettled.booked (fun _ => trivial) ih.1,
        ⟨⟨[], by simp, rfl⟩, hsettled.reading, hsettled.source⟩⟩
  exact key.1

end Courier.Scheduler.Keeper

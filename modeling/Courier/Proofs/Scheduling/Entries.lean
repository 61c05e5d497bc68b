import Courier.Proofs.Scheduling.Booking
import Courier.Proofs.Scheduling.Feeds

/-!
The entries of a scheduler's crontab.

An `Act` is something that is done to a scheduler or to its crontab.  A pass reads its jobs from a
feed, which may fail or be too slow, and then nothing is changed.  The jobs that a feed has are to
have distinct ids (`Act.Distinct`), as those of a catalog have; a job that comes twice would be
registered twice under one id, and one of its entries would be left over.

What every act keeps is that registrations and crontab belong together (`Sound`), one lemma for each
kind of act.  Looks at the crontab, its start and its end do not touch which entries there are.

Main statement: after any acts, beginning with nothing, every registration has an entry of its own
that was made from a job of its id, the crontab has no other entries, and it has never refused to
remove one (`paired_run`).
-/

namespace Courier

open Time Crontab

namespace Scheduler

/-! ### Acts -/

/-- What is done to a scheduler or to its queue.

* `sync`: a pass that reads a feed from an instant of the running clock on.
* `work`: the queue does what is due. -/
inductive Act
  | add (now : Instant) (j : Job)
  | remove (id : String)
  | sync (wall : Instant) (feed : Feed) (now timeout : Nat)
  | work (m : Moment)
  | start (now : Nat)
  | stop

namespace Act

/-- The jobs that come with an act. -/
def jobs : Act → List Job
  | .add _ j => [j]
  | .sync _ feed _ _ => feed.jobs
  | _ => []

/-- Whether the jobs that a pass reads have distinct ids. -/
def Distinct : Act → Prop
  | .sync _ feed _ _ => (feed.jobs.map Job.id).Nodup
  | _ => True

end Act

variable {κ : Type} [TaskQueue κ]

/-- A pass that reads its jobs first; without them it changes nothing. -/
def pass (s : Scheduler κ) (wall : Instant) (read : Except SchedulerError (List Job)) :
    Scheduler κ :=
  match read with
  | .ok jobs => (s.sync wall jobs).2
  | .error _ => s

/-- The scheduler after an act. -/
def perform (s : Scheduler κ) : Act → Scheduler κ
  | .add now j => (s.add now j).2
  | .remove id => (s.remove id).2
  | .sync wall feed now timeout => s.pass wall (feed.read now timeout).2
  | .work m => ⟨s.table, Timed.settle m s.queue⟩
  | .start now => ⟨s.table, (TaskQueue.start s.queue now).2⟩
  | .stop => ⟨s.table, TaskQueue.stop s.queue⟩

/-- The scheduler after some acts. -/
def run (s : Scheduler κ) (acts : List Act) : Scheduler κ := acts.foldl perform s

theorem pass_bare (s : Scheduler (Traced κ)) (wall : Instant)
    (read : Except SchedulerError (List Job)) : s.bare.pass wall read = (s.pass wall read).bare := by
  rcases read with e | jobs
  · rfl
  · exact congrArg Prod.snd (sync_bare s wall jobs)

theorem perform_bare (s : Scheduler (Traced κ)) (act : Act) :
    s.bare.perform act = (s.perform act).bare := by
  cases act with
  | add now j => exact congrArg Prod.snd (add_bare s now j)
  | remove id => exact congrArg Prod.snd (remove_bare s id)
  | sync wall feed now timeout => exact pass_bare s wall _
  | work m => rfl
  | start now => rfl
  | stop => rfl

/-- The record does not matter for what happens. -/
theorem run_bare (s : Scheduler (Traced κ)) (acts : List Act) :
    s.bare.run acts = (s.run acts).bare := by
  induction acts generalizing s with
  | nil => rfl
  | cons act acts ih =>
    show (s.bare.perform act).run acts = ((s.perform act).run acts).bare
    rw [perform_bare, ih]

/-! ### What acts preserve -/

namespace Sound

variable {P : Job → Prop} {s : Scheduler (Traced Daemon)}

theorem pass (h : Sound P s) (wall : Instant) {read : Except SchedulerError (List Job)}
    (hread : ∀ jobs, read = .ok jobs → (∀ j ∈ jobs, P j) ∧ (jobs.map Job.id).Nodup) :
    Sound P (s.pass wall read) := by
  rcases read with e | jobs
  · exact h
  · obtain ⟨hjobs, hids⟩ := hread jobs rfl
    exact h.sync wall hjobs hids

/-- The daemon only moves its entries on. -/
theorem work (h : Sound P s) (m : Moment) : Sound P ⟨s.table, Timed.settle m s.queue⟩ := by
  have hfired : Booked P s.table (s.queue.queue.fireDue m.wall).2.crontab :=
    h.booked.fireDue m.wall s.queue.queue.channel
  refine ⟨?_, h.granted⟩
  -- whether it fires or not, ids and work of the entries are as before
  show Booked P s.table (Daemon.settle m s.queue.queue).crontab
  unfold Daemon.settle
  split
  · exact h.booked
  · split
    · exact hfired
    · exact h.booked

theorem start (h : Sound P s) (now : Nat) :
    Sound P ⟨s.table, (TaskQueue.start s.queue now).2⟩ := by
  have hcrontab : (TaskQueue.start s.queue.queue now).2.crontab = s.crontab := by
    simp only [TaskQueue.start, Daemon.start]
    -- the crontab is started, or this is refused
    split
    · rename_i d hd
      split at hd
      · cases hd
      · cases hd
        rfl
    · rfl
  refine ⟨?_, h.granted⟩
  show Booked P s.table (TaskQueue.start s.queue.queue now).2.crontab
  rw [hcrontab]
  exact h.booked

theorem stop (h : Sound P s) : Sound P ⟨s.table, TaskQueue.stop s.queue⟩ := by
  have hcrontab : (TaskQueue.stop s.queue.queue).crontab = s.crontab := by
    simp only [TaskQueue.stop, Daemon.stop]
    split <;> rfl
  refine ⟨?_, h.granted⟩
  show Booked P s.table (TaskQueue.stop s.queue.queue).crontab
  rw [hcrontab]
  exact h.booked

/-- Every act keeps table and crontab together. -/
theorem perform (h : Sound P s) {act : Act} (hjobs : ∀ j ∈ act.jobs, P j) (hids : act.Distinct) :
    Sound P (s.perform act) := by
  cases act with
  | add now j => exact h.add now (hjobs j (List.mem_singleton_self j))
  | remove id => exact (h.remove id).2.1
  | sync wall feed now timeout =>
    refine h.pass wall fun jobs hread => ?_
    rw [Feed.jobs_of_read hread]
    exact ⟨hjobs, hids⟩
  | work m => exact h.work m
  | start now => exact h.start now
  | stop => exact h.stop

theorem run (h : Sound P s) {acts : List Act} (hjobs : ∀ act ∈ acts, ∀ j ∈ act.jobs, P j)
    (hids : ∀ act ∈ acts, act.Distinct) : Sound P (s.run acts) := by
  induction acts generalizing s with
  | nil => exact h
  | cons act acts ih =>
    have hact := h.perform (hjobs act List.mem_cons_self) (hids act List.mem_cons_self)
    exact ih hact (fun a ha => hjobs a (List.mem_cons_of_mem _ ha))
      (fun a ha => hids a (List.mem_cons_of_mem _ ha))

/-- What has been called before does not matter. -/
theorem bare (h : Sound P s) : Sound P s.bare.traced := ⟨h.booked, by simp⟩

/-- The same without a record of what has been called. -/
theorem run_traced {s : Scheduler Daemon} (h : Sound P s.traced) {acts : List Act}
    (hjobs : ∀ act ∈ acts, ∀ j ∈ act.jobs, P j) (hids : ∀ act ∈ acts, act.Distinct) :
    Sound P (s.run acts).traced := by
  have hbare : s.run acts = (s.traced.run acts).bare := run_bare s.traced acts
  rw [hbare]
  exact (h.run hjobs hids).bare

end Sound

/-! ### Every entry has its job -/

/-- Registrations and cron entries are in one-to-one correspondence, and the queue has given up
every entry that it was asked to give up.

* `live`: a registration has a live entry, made from a job of its id.
* `injective`: different jobs have different entries.
* `owned`: there is no other entry.
* `once`: no job is registered twice, and no entry is there twice. -/
structure Paired (given : List Job) (s : Scheduler (Traced Daemon)) : Prop where
  live : ∀ id r, s.table.lookup id = some r →
    ∃ e, s.crontab.entries.lookup r.entry = some e ∧ ∃ j ∈ given, j.id = id ∧ e.IsOf j
  injective : ∀ id id' r r', s.table.lookup id = some r → s.table.lookup id' = some r' →
    r.entry = r'.entry → id = id'
  owned : ∀ n e, s.crontab.entries.lookup n = some e →
    ∃ id r, s.table.lookup id = some r ∧ r.entry = n
  once : Keyed s.table ∧ Keyed s.crontab.entries
  removed : ∀ entry answer, Call.unregister entry answer ∈ s.queue.calls → answer = .ok ()

theorem Sound.paired {given : List Job} {s : Scheduler (Traced Daemon)}
    (h : Sound (· ∈ given) s) : Paired given s := by
  constructor
  case live =>
    intro id r hr
    obtain ⟨j, e, hj, hid, -, he, hof⟩ := h.booked.made id r (mem_of_lookup hr)
    exact ⟨e, h.booked.entries.lookup_of_mem he, j, hj, hid, hof⟩
  case injective =>
    intro id id' r r' hr hr' hentry
    exact congrArg Prod.fst
      (h.booked.owner_unique (mem_of_lookup hr) (mem_of_lookup hr') hentry)
  case owned =>
    intro n e he
    obtain ⟨id, r, hr, hentry⟩ := h.booked.owner (List.mem_map_of_mem (mem_of_lookup he))
    exact ⟨id, r, h.booked.table.lookup_of_mem hr, hentry⟩
  case once => exact ⟨h.booked.table, h.booked.entries⟩
  case removed =>
    intro entry answer hcall
    exact h.granted _ hcall

/-- A scheduler that has registered nothing, with a new daemon. -/
def fresh (channel : Channel) (period : Nat) : Scheduler Daemon := ⟨[], { channel, period }⟩

theorem Sound.fresh (P : Job → Prop) (channel : Channel) (period : Nat) :
    Sound P (fresh channel period).traced where
  booked := .empty P
  granted := by simp

/-- After any acts, beginning with nothing, registrations and cron entries are in one-to-one
correspondence. -/
theorem paired_run (channel : Channel) (period : Nat) {acts : List Act}
    (hids : ∀ act ∈ acts, act.Distinct) :
    Paired (acts.flatMap Act.jobs) ((fresh channel period).traced.run acts) ∧
      (fresh channel period).run acts = ((fresh channel period).traced.run acts).bare := by
  constructor
  · have hrun := (Sound.fresh (· ∈ acts.flatMap Act.jobs) channel period).run
      (fun act hact j hj => List.mem_flatMap.mpr ⟨act, hact, hj⟩) hids
    exact hrun.paired
  · exact run_bare (fresh channel period).traced acts

/-- Of two jobs one cannot be read; the other one is edited. -/
def edit : List Act :=
  [.sync ⟨0, 0⟩ ⟨[(0, .ok (.new "a" "mail" "0 0 * * *" ⟨0, 0⟩)),
      (5, .ok (.new "b" "mail" "never" ⟨0, 0⟩))], false⟩ 0 1000,
    .work ⟨10, ⟨0, 10000000⟩⟩, .add ⟨60, 0⟩ (.new "a" "mail" "0 6 * * *" ⟨60, 0⟩), .remove "b"]

theorem paired_run_edit :
    (∀ act ∈ edit, act.Distinct) ∧
      Paired (edit.flatMap Act.jobs) ((fresh ⟨16, [], true, false⟩ 1000).traced.run edit) ∧
      (fresh ⟨16, [], true, false⟩ 1000).run edit =
        ((fresh ⟨16, [], true, false⟩ 1000).traced.run edit).bare := by
  have hids : ∀ act ∈ edit, act.Distinct := by
    simp [edit, Act.Distinct, Feed.jobs, Except.toOption, Job.new]
  exact ⟨hids, paired_run ⟨16, [], true, false⟩ 1000 hids⟩

example : ((fresh ⟨16, [], true, false⟩ 1000).run edit).table =
    [("a", ⟨1, ⟨60, 0⟩⟩)] := by decide +kernel

end Scheduler
end Courier

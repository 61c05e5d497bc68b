import Courier.Proofs.Scheduling.Reconciliation
import Courier.Proofs.Time.Order

/-!
Registrations with a crontab.

`Booked` says that table and crontab belong together: they have the same entries, and every entry is
the one of a job with the id and the timestamp of its registration.  What jobs these are is left
open (`P`); it may be that they were given to the scheduler, or that they are versions of the
catalog.  One lemma for each way in which table and crontab change says that they still belong
together: `Booked.erase`, `Booked.insert`, and `Booked.moved` for entries that are moved on to their
next time.

From these it follows for the operations of a scheduler (`Sound.add`, `Sound.remove`, `Sound.sync`).
`Sound` also keeps that the crontab has answered every call as it had to: it never refuses a
removal, since every registration has its entry, and it takes a job just if its expression still
comes up (`Call.Granted`).  So the answers which a pass depends on are known here, and what it does
can be said in terms of the jobs alone.

Main statements: after a pass every registration is of a job that was read
(`Sound.current_of_sync`), a new job is registered just if its options say something and the crontab
takes its expression (`Sound.lookup_sync_of_new`), and the pass reports no more than that
(`Sound.report_sync_of_new`).
-/

namespace Courier

open Time Crontab

/-- Whether an entry is the one of a job: its schedule, its task and its options. -/
def Crontab.Entry.IsOf (e : Crontab.Entry) (j : Job) : Prop :=
  Cron.Schedule.parse j.cron = .ok e.schedule ∧ e.task = Task.ofJob j ∧
    TaskOption.ofJobOptions j.options = .ok e.options

/-- Whether the crontab takes an expression at an instant: it can be read and comes up again. -/
def Crontab.accepts (now : Instant) (expr : String) : Bool :=
  match Cron.Schedule.parse expr with
  | .ok schedule => (schedule.next now).isSome
  | .error _ => false

theorem Cron.Schedule.parse_of_blank {expr : String} (h : Text.blank expr = true) :
    parse expr = .error .empty := by
  have htrim : Text.trim expr = "" := by
    have hall : ∀ c ∈ expr.toList, Text.isBlank c = true := by simpa [Text.blank] using h
    have hdrop : expr.toList.dropWhile Text.isBlank = [] := by
      rw [← List.append_nil expr.toList, List.dropWhile_append_of_pos hall]
      rfl
    simp [Text.trim, Text.trimChars, hdrop, Text.trimEnd]
  simp [parse, htrim]

theorem Crontab.accepts_of_blank {expr : String} (h : Text.blank expr = true) (now : Instant) :
    accepts now expr = false := by
  simp [accepts, Cron.Schedule.parse_of_blank h]

/-- A new entry is the one that was asked for, under a fresh id. -/
theorem Crontab.register_cases (c : Crontab) (now : Instant) (expr : String) (task : Task)
    (options : List TaskOption) :
    (∃ e, c.register now expr task options = .error e ∧ accepts now expr = false) ∨
      ∃ entry : Crontab.Entry, c.register now expr task options = .ok (c.fresh,
          { c with entries := c.entries ++ [(c.fresh, entry)], fresh := c.fresh + 1 }) ∧
        accepts now expr = true ∧ Cron.Schedule.parse expr = .ok entry.schedule ∧
          entry.task = task ∧ entry.options = options := by
  unfold register accepts
  -- an expression that cannot be read, one that does not come up again, or one that is taken
  rcases Cron.Schedule.parse expr with e | schedule
  · exact .inl ⟨_, rfl, rfl⟩
  · rcases hnext : schedule.next now with - | next
    · exact .inl ⟨.invalidCron expr .exhausted, by simp only [hnext], by simp [hnext]⟩
    · exact .inr ⟨⟨schedule, task, options, some next⟩, by simp only [hnext], by simp [hnext],
        rfl, rfl, rfl⟩

/-- Firing only moves entries on. -/
theorem Crontab.entries_fireDue (c : Crontab) (now : Instant) (channel : Channel) :
    (c.fireDue now channel).2.1.entries =
      c.entries.map fun e => (e.1, if e.2.isDue now then e.2.moveOn now else e.2) := by
  show c.entries.map (fun e => if e.2.isDue now then (e.1, e.2.moveOn now) else e) = _
  refine List.map_congr_left fun e _ => ?_
  split <;> rfl

theorem Crontab.Daemon.unregister_eq_of_ok {d : Crontab.Daemon} {n : EntryId} {c : Crontab}
    (h : d.crontab.unregister n = .ok c) :
    TaskQueue.unregister d n = (.ok (), { d with crontab := c }) := by
  simp only [TaskQueue.unregister, h]

theorem Crontab.Daemon.register_eq_of_ok {d : Crontab.Daemon} {now : Instant} {expr : String}
    {task : Task} {options : List TaskOption} {n : EntryId} {c : Crontab}
    (h : d.crontab.register now expr task options = .ok (n, c)) :
    TaskQueue.register d now expr task options = (.ok n, { d with crontab := c }) := by
  simp only [TaskQueue.register, h]

theorem Crontab.Daemon.register_eq_of_error {d : Crontab.Daemon} {now : Instant} {expr : String}
    {task : Task} {options : List TaskOption} {e : SchedulerError}
    (h : d.crontab.register now expr task options = .error e) :
    TaskQueue.register d now expr task options = (.error e, d) := by
  simp only [TaskQueue.register, h]

namespace Scheduler

/-- Table and crontab belong together; the registrations are of jobs with a property.

* `matched`: the registrations have the entries of the crontab, each of them once. -/
structure Booked (P : Job → Prop) (t : Registrations) (c : Crontab) : Prop where
  table : Keyed t
  entries : Keyed c.entries
  matched : (t.map fun p => p.2.entry).Perm (c.entries.map Prod.fst)
  fresh : ∀ n ∈ c.entries.map Prod.fst, n < c.fresh
  made : ∀ id r, (id, r) ∈ t → ∃ j e, P j ∧ j.id = id ∧ j.updatedAt = r.updatedAt ∧
    (r.entry, e) ∈ c.entries ∧ e.IsOf j

namespace Booked

variable {P Q : Job → Prop} {t : Registrations} {c : Crontab}

theorem empty (P : Job → Prop) : Booked P [] {} where
  table := keyed_nil
  entries := keyed_nil
  matched := .nil
  fresh := by simp
  made := by simp

theorem mono (h : Booked P t c) (hPQ : ∀ j, P j → Q j) : Booked Q t c where
  table := h.table
  entries := h.entries
  matched := h.matched
  fresh := h.fresh
  made := by
    intro id r hr
    obtain ⟨j, e, hj, hid, hat, he, hof⟩ := h.made id r hr
    exact ⟨j, e, hPQ j hj, hid, hat, he, hof⟩

/-- Every entry has its registration. -/
theorem owner (h : Booked P t c) {n : EntryId} (hn : n ∈ c.entries.map Prod.fst) :
    ∃ id r, (id, r) ∈ t ∧ r.entry = n := by
  obtain ⟨⟨id, r⟩, hp, rfl⟩ := List.mem_map.mp (h.matched.symm.subset hn)
  exact ⟨id, r, hp, rfl⟩

theorem live (h : Booked P t c) {id : String} {r : Registration} (hr : (id, r) ∈ t) :
    r.entry ∈ c.entries.map Prod.fst :=
  h.matched.subset (List.mem_map_of_mem (f := fun p : String × Registration => p.2.entry) hr)

/-- Different jobs have different entries. -/
theorem owner_unique (h : Booked P t c) {p q : String × Registration} (hp : p ∈ t) (hq : q ∈ t)
    (hpq : p.2.entry = q.2.entry) : p = q := by
  have hnodup : (t.map fun p => p.2.entry).Nodup := h.matched.nodup_iff.mpr h.entries
  exact List.inj_on_of_nodup_map hnodup hp hq hpq

/-- A registration goes with its entry. -/
theorem erase (h : Booked P t c) {id : String} {r : Registration} (hr : t.lookup id = some r) :
    Booked P (Registrations.erase id t)
      { c with entries := c.entries.filter fun e => e.1 ≠ r.entry } := by
  have hmem : (id, r) ∈ t := mem_of_lookup hr
  -- an id has one registration, and an entry belongs to one of them
  have hsame : ∀ p ∈ t, p.1 = id ↔ p.2.entry = r.entry := by
    intro p hp
    constructor
    · intro hid
      have hlookup := h.table.lookup_of_mem hp
      rw [hid, hr] at hlookup
      rw [Option.some.inj hlookup]
    · intro hentry
      rw [h.owner_unique hp hmem hentry]
  constructor
  case table => exact h.table.filter _
  case entries => exact h.entries.filter _
  case matched =>
    have htable : (Registrations.erase id t).map (fun p => p.2.entry) =
        (t.map fun p => p.2.entry).filter fun n => n ≠ r.entry := by
      rw [List.filter_map, Registrations.erase]
      congr 1
      refine List.filter_congr fun p hp => ?_
      simp [hsame p hp]
    have hentries : (c.entries.filter fun e => e.1 ≠ r.entry).map Prod.fst =
        (c.entries.map Prod.fst).filter fun n => n ≠ r.entry := by
      rw [List.filter_map]
      rfl
    rw [htable, hentries]
    exact h.matched.filter _
  case fresh =>
    intro n hn
    exact h.fresh n ((List.filter_sublist.map Prod.fst).subset hn)
  case made =>
    intro id' r' hr'
    obtain ⟨hmem', hne⟩ := List.mem_filter.mp hr'
    obtain ⟨j, e, hj, hid, hat, he, hof⟩ := h.made id' r' hmem'
    have hentry : r'.entry ≠ r.entry := by
      intro hentry
      exact of_decide_eq_true hne ((hsame (id', r') hmem').mpr hentry)
    exact ⟨j, e, hj, hid, hat, List.mem_filter.mpr ⟨he, by simpa using hentry⟩, hof⟩

/-- A registration comes with its entry. -/
theorem insert (h : Booked P t c) {j : Job} (hj : P j) (hid : t.lookup j.id = none)
    {e : Crontab.Entry} (he : e.IsOf j) :
    Booked P (Registrations.insert j.id ⟨c.fresh, j.updatedAt⟩ t)
      { c with entries := c.entries ++ [(c.fresh, e)], fresh := c.fresh + 1 } := by
  have hnew : c.fresh ∉ c.entries.map Prod.fst := fun hn => Nat.lt_irrefl _ (h.fresh _ hn)
  rw [Registrations.insert_of_lookup_eq_none hid]
  constructor
  case table => exact h.table.concat _ hid
  case entries => exact h.entries.concat e (lookup_eq_none_iff_not_mem_keys.mpr hnew)
  case matched =>
    rw [List.map_append, List.map_append]
    exact h.matched.append (.refl _)
  case fresh =>
    intro n hn
    rw [List.map_append] at hn
    rcases List.mem_append.mp hn with hn | hn
    · exact Nat.lt_succ_of_lt (h.fresh n hn)
    · obtain rfl : n = c.fresh := by simpa using hn
      exact Nat.lt_succ_self _
  case made =>
    intro id r hr
    rcases List.mem_append.mp hr with hr | hr
    · obtain ⟨i, e', hi, hid', hat, he', hof⟩ := h.made id r hr
      exact ⟨i, e', hi, hid', hat, List.mem_append_left _ he', hof⟩
    · obtain ⟨rfl, rfl⟩ : id = j.id ∧ r = ⟨c.fresh, j.updatedAt⟩ := by simpa using hr
      exact ⟨j, e, hj, rfl, rfl, List.mem_append_right _ (List.mem_singleton_self _), he⟩

/-- When an entry runs next does not matter. -/
theorem moved (h : Booked P t c) {c' : Crontab} {f : Crontab.Entry → Crontab.Entry}
    (hentries : c'.entries = c.entries.map fun p => (p.1, f p.2)) (hfresh : c'.fresh = c.fresh)
    (hf : ∀ e j, e.IsOf j → (f e).IsOf j) : Booked P t c' := by
  have hkeys : c'.entries.map Prod.fst = c.entries.map Prod.fst := by
    rw [hentries, List.map_map]
    rfl
  constructor
  case table => exact h.table
  case entries =>
    rw [Keyed, hkeys]
    exact h.entries
  case matched =>
    rw [hkeys]
    exact h.matched
  case fresh =>
    rw [hkeys, hfresh]
    exact h.fresh
  case made =>
    intro id r hr
    obtain ⟨j, e, hj, hid, hat, he, hof⟩ := h.made id r hr
    have hmem : (r.entry, f e) ∈ c'.entries := by
      rw [hentries]
      exact List.mem_map.mpr ⟨(r.entry, e), he, rfl⟩
    exact ⟨j, f e, hj, hid, hat, hmem, hf e j hof⟩

/-- Firing changes only when entries run next. -/
theorem fireDue (h : Booked P t c) (now : Instant) (channel : Channel) :
    Booked P t (c.fireDue now channel).2.1 := by
  have hentries := c.entries_fireDue now channel
  refine h.moved (f := fun e => if e.isDue now then e.moveOn now else e) hentries rfl ?_
  intro e j hof
  split
  · exact hof
  · exact hof

end Booked

/-! ### The operations of a scheduler -/

/-- Whether an answer is the one that a crontab gives to a scheduler: it never refuses a removal,
and an offer just if the expression cannot be read or does not come up again. -/
def Call.Granted : Call → Prop
  | .register now expr _ _ answer => answer.isOk = Crontab.accepts now expr
  | .unregister _ answer => answer = .ok ()

/-- Whether a job is registered when it is offered: its options say something, and the crontab takes
its expression. -/
def takes (now : Instant) (j : Job) : Bool :=
  (TaskOption.ofJobOptions j.options).isOk && Crontab.accepts now j.cron

theorem takes_eq_accepts {j : Job} {options : List TaskOption}
    (h : TaskOption.ofJobOptions j.options = .ok options) (now : Instant) :
    takes now j = Crontab.accepts now j.cron := by
  rw [takes, h]
  exact Bool.true_and _

/-- The crontab of a scheduler. -/
def crontab (s : Scheduler (Traced Crontab.Daemon)) : Crontab := s.queue.queue.crontab

/-- Table and crontab belong together, and the crontab has refused no removal. -/
structure Sound (P : Job → Prop) (s : Scheduler (Traced Crontab.Daemon)) : Prop where
  booked : Booked P s.table s.crontab
  granted : ∀ call ∈ s.queue.calls, call.Granted

namespace Sound

variable {P : Job → Prop} {s : Scheduler (Traced Crontab.Daemon)}

theorem mono {Q : Job → Prop} (h : Sound P s) (hPQ : ∀ j, P j → Q j) : Sound Q s :=
  ⟨h.booked.mono hPQ, h.granted⟩

theorem granted_concat {calls : List Call} (h : ∀ call ∈ calls, call.Granted) {new : Call}
    (hnew : new.Granted) : ∀ call ∈ calls ++ [new], call.Granted := by
  intro call hcall
  rcases List.mem_append.mp hcall with hold | hlast
  · exact h call hold
  · rw [List.mem_singleton.mp hlast]
    exact hnew

/-- A removal succeeds, and the registration is gone. -/
theorem unregister (h : Sound P s) (id : String) :
    (s.unregister id).1 = .ok () ∧ Sound P (s.unregister id).2 ∧
      (s.unregister id).2.table = Registrations.erase id s.table := by
  -- without a registration nothing is asked of the crontab
  rcases hlookup : s.table.lookup id with - | r
  · rw [unregister_of_none hlookup]
    exact ⟨rfl, h, (Registrations.erase_of_lookup_eq_none hlookup).symm⟩
  · have hlive : (s.crontab.entries.lookup r.entry).isSome :=
      mem_keys_iff_isSome.mp (h.booked.live (mem_of_lookup hlookup))
    have hcrontab : s.crontab.unregister r.entry = .ok { s.crontab with
        entries := s.crontab.entries.filter fun e => e.1 ≠ r.entry } := if_pos hlive
    have hqueue := Crontab.Daemon.unregister_eq_of_ok (d := s.queue.queue) hcrontab
    unfold Scheduler.unregister
    simp only [hlookup, Traced.unregister_eq, hqueue]
    exact ⟨trivial, ⟨h.booked.erase hlookup, granted_concat h.granted rfl⟩, trivial⟩

/-- A job without a registration is offered, and has one if the crontab takes it. -/
theorem register (h : Sound P s) (now : Instant) {j : Job} (hj : P j)
    (hid : s.table.lookup j.id = none) :
    Sound P (s.register now j).2 ∧
      ∀ id ≠ j.id, (s.register now j).2.table.lookup id = s.table.lookup id := by
  unfold Scheduler.register
  -- options that say nothing stop a job before it is offered
  rcases hoptions : TaskOption.ofJobOptions j.options with ⟨kind, fault⟩ | options
  · exact ⟨h, fun _ _ => rfl⟩
  · rcases s.crontab.register_cases now j.cron (Task.ofJob j) options with
      ⟨e, hcrontab, haccepts⟩ | ⟨e, hcrontab, haccepts, hschedule, htask, hopts⟩
    · have hqueue := Crontab.Daemon.register_eq_of_error (d := s.queue.queue) hcrontab
      simp only [Traced.register_eq, hqueue]
      exact ⟨⟨h.booked, granted_concat h.granted haccepts.symm⟩, fun _ _ => trivial⟩
    · have hqueue := Crontab.Daemon.register_eq_of_ok (d := s.queue.queue) hcrontab
      have hof : e.IsOf j := ⟨hschedule, htask, by rw [hoptions, hopts]⟩
      simp only [Traced.register_eq, hqueue]
      refine ⟨⟨h.booked.insert hj hid hof, granted_concat h.granted haccepts.symm⟩, ?_⟩
      intro id hne
      rw [Registrations.lookup_insert, if_neg hne]

/-! ### One job -/

theorem remove (h : Sound P s) (id : String) :
    (s.remove id).1 = .ok () ∧ Sound P (s.remove id).2 ∧
      (s.remove id).2.table = Registrations.erase id s.table := by
  obtain ⟨hok, hsound, htable⟩ := h.unregister id
  unfold Scheduler.remove
  generalize s.unregister id = result at hok hsound htable
  obtain ⟨answer, s'⟩ := result
  obtain rfl : answer = .ok () := hok
  exact ⟨rfl, hsound, htable⟩

theorem add (h : Sound P s) (now : Instant) {j : Job} (hj : P j) : Sound P (s.add now j).2 := by
  obtain ⟨hok, hsound, htable⟩ := h.remove j.id
  unfold Scheduler.add
  generalize s.remove j.id = result at hok hsound htable
  obtain ⟨answer, s'⟩ := result
  obtain rfl : answer = .ok () := hok
  -- the old registration is gone, so the new one does not hide it
  have hid : s'.table.lookup j.id = none := by
    rw [htable, Registrations.lookup_erase, if_pos rfl]
  have hregister := (Sound.register (s := s') hsound now hj hid).1
  by_cases hschedulable : j.schedulable = true
  · simp only [hschedulable, if_true]
    generalize s'.register now j = result at hregister
    obtain ⟨e | ⟨⟩, s''⟩ := result
    · exact hregister
    · exact hregister
  · simp only [hschedulable]
    exact hsound

/-! ### All jobs -/

theorem unregisterAll (h : Sound P s) (ids : List String) :
    (s.unregisterAll ids).1 = [] ∧ Sound P (s.unregisterAll ids).2 ∧
      ∀ id, (s.unregisterAll ids).2.table.lookup id =
        if id ∈ ids then none else s.table.lookup id := by
  induction ids generalizing s with
  | nil => exact ⟨rfl, h, fun id => by simp [Scheduler.unregisterAll]⟩
  | cons id ids ih =>
    obtain ⟨hok, hsound, htable⟩ := h.unregister id
    unfold Scheduler.unregisterAll
    generalize s.unregister id = result at hok hsound htable
    obtain ⟨answer, s'⟩ := result
    obtain rfl : answer = .ok () := hok
    obtain ⟨hnone, hsound', hlookup⟩ := ih hsound
    refine ⟨hnone, hsound', ?_⟩
    intro k
    rw [hlookup k, htable, Registrations.lookup_erase]
    by_cases hk : k = id <;> simp [hk]

theorem registerAll (h : Sound P s) (now : Instant) (failed : List String) {jobs : List Job}
    (hjobs : ∀ j ∈ jobs, P j) (hids : (jobs.map Job.id).Nodup)
    (hnone : ∀ j ∈ jobs, s.table.lookup j.id = none) (report : SyncReport) :
    Sound P (registerAll now failed s jobs report).2 := by
  induction jobs generalizing s report with
  | nil => exact h
  | cons j jobs ih =>
    obtain ⟨hj, hrest⟩ := List.nodup_cons.mp hids
    have hjobs' : ∀ i ∈ jobs, P i := fun i hi => hjobs i (List.mem_cons_of_mem _ hi)
    have hnone' : ∀ i ∈ jobs, s.table.lookup i.id = none :=
      fun i hi => hnone i (List.mem_cons_of_mem _ hi)
    -- a blank expression is left out, and any other job is offered
    by_cases hskip : leavesOut failed j = true
    · rw [registerAll_cons_of_leavesOut hskip]
      exact ih h hjobs' hrest hnone' _
    · obtain ⟨hsound, hother⟩ := h.register now (hjobs j List.mem_cons_self)
        (hnone j List.mem_cons_self)
      rw [registerAll_cons_of_tries hskip]
      refine ih hsound hjobs' hrest ?_ _
      intro i hi
      have hne : i.id ≠ j.id := fun hij => hj (hij ▸ List.mem_map_of_mem hi)
      rw [hother i.id hne]
      exact hnone' i hi

/-- A pass removes what it has to, and only then registers. -/
theorem sync (h : Sound P s) (now : Instant) {jobs : List Job} (hjobs : ∀ j ∈ jobs, P j)
    (hids : (jobs.map Job.id).Nodup) : Sound P (s.sync now jobs).2 := by
  obtain ⟨-, hsound, hlookup⟩ :=
    h.unregisterAll ((Reconciliation.stale s.table jobs).map Prod.fst)
  rw [sync_eq]
  refine hsound.registerAll now _ (fun j hj => hjobs j (List.mem_filter.mp hj).1)
    (hids.sublist (List.filter_sublist.map _)) ?_ _
  intro j hj
  rw [hlookup j.id]
  split
  · rfl
  · -- a registration that was not removed is current, and such a job is not tried
    rename_i hstale
    by_contra hregistered
    exact hstale (Reconciliation.mem_stale.mpr ⟨Option.isSome_iff_ne_none.mpr hregistered,
      Reconciliation.current_of_mem_pending hids hj⟩)

/-! ### After a pass -/

section Pass

variable {s : Scheduler Crontab.Daemon} {jobs : List Job}

open Reconciliation

/-- What a pass leaves of a scheduler with a crontab, which has refused no removal. -/
theorem sync_eq_of_sound (h : Sound P s.traced) (now : Instant) (hjobs : ∀ j ∈ jobs, P j)
    (hids : (jobs.map Job.id).Nodup) :
    ∃ a : Answers, (∀ id, (s.sync now jobs).2.table.lookup id = registration s.table jobs a id) ∧
      (s.sync now jobs).1 = report s.table jobs a ∧
      (∀ p ∈ stale s.table jobs, (a.removal p.1).isOk) ∧
      ∀ j ∈ due s.table jobs a, ∀ options, TaskOption.ofJobOptions j.options = .ok options →
        (a.entry j.id).isOk = Crontab.accepts now j.cron := by
  obtain ⟨a, queue, table, htraced, -, hlookup⟩ := sync_traced_eq s h.booked.table now hids
  have hsync : s.sync now jobs = (report s.table jobs a, ⟨table, queue⟩) := by
    have hbare := sync_bare s.traced now jobs
    rw [htraced] at hbare
    exact hbare
  have hgranted : ∀ call ∈ calls s.table jobs a now, call.Granted := by
    have hsound := (h.sync now hjobs hids).granted
    rw [htraced] at hsound
    exact hsound
  refine ⟨a, ?_, ?_, ?_, ?_⟩
  · intro id
    rw [hsync]
    exact hlookup id
  · rw [hsync]
  · intro p hp
    have hremoval : a.removal p.1 = .ok () := hgranted (.unregister p.2.entry (a.removal p.1))
      (List.mem_append_left _ (List.mem_map_of_mem hp))
    rw [hremoval]
    rfl
  · intro j hj options hoptions
    have hoffer : offer now (a.entry j.id) j =
        some (.register now j.cron (Task.ofJob j) options (a.entry j.id)) := by
      simp only [offer, hoptions]
    exact hgranted (.register now j.cron (Task.ofJob j) options (a.entry j.id))
      (List.mem_append_right _ (List.mem_filterMap.mpr ⟨j, hj, hoffer⟩))

/-- After a pass every registration is of a job that was read, and at least as new. -/
theorem current_of_sync (h : Sound P s.traced) (now : Instant) (hjobs : ∀ j ∈ jobs, P j)
    (hids : (jobs.map Job.id).Nodup) {id : String} {r : Registration}
    (hr : (s.sync now jobs).2.table.lookup id = some r) :
    ∃ j ∈ jobs, j.id = id ∧ j.updatedAt ≤ r.updatedAt := by
  obtain ⟨a, hlookup, -, hremoval, -⟩ := sync_eq_of_sound h now hjobs hids
  rw [hlookup, registration] at hr
  rcases hkept : kept s.table jobs a id with - | r'
  · -- a job that has been registered in this pass
    rw [hkept] at hr
    obtain ⟨j, hfind, hgranted⟩ := Option.bind_eq_some_iff.mp hr
    have hmem : j ∈ jobs := due_sublist.subset (List.mem_of_find?_eq_some hfind)
    have hid : j.id = id := by simpa using List.find?_some hfind
    exact ⟨j, hmem, hid, le_of_eq (updatedAt_of_granted hgranted).symm⟩
  · -- a registration that has been kept
    rw [hkept] at hr
    obtain rfl : r' = r := Option.some.inj hr
    obtain ⟨hold, hcurrent⟩ := current_of_kept hremoval hkept
    exact exists_of_current hold hcurrent

section Due

variable {a : Answers} {now : Instant}
  (hentry : ∀ j ∈ due s.table jobs a, ∀ options, TaskOption.ofJobOptions j.options = .ok options →
    (a.entry j.id).isOk = Crontab.accepts now j.cron) {j : Job} (hj : j ∈ due s.table jobs a)

include hentry hj

/-- A job that is due is granted its registration just if it is taken. -/
theorem granted_of_due :
    (Scheduler.granted (a.entry j.id) j).map Registration.updatedAt =
      if takes now j then some j.updatedAt else none := by
  unfold Scheduler.granted takes
  rcases hoptions : TaskOption.ofJobOptions j.options with e | options
  · rfl
  · have hok := hentry j hj options hoptions
    rcases hanswer : a.entry j.id with e | entry
    · rw [hanswer] at hok
      simp [← hok, Except.isOk, Except.toBool]
    · rw [hanswer] at hok
      simp [← hok, Except.isOk, Except.toBool]

theorem isSome_granted_of_due :
    (Scheduler.granted (a.entry j.id) j).isSome = takes now j := by
  rw [← Option.isSome_map, granted_of_due hentry hj]
  cases takes now j <;> rfl

end Due

/-- After a pass every job that was read is registered, if the crontab takes it. -/
theorem registered_of_sync (h : Sound P s.traced) (now : Instant) (hjobs : ∀ j ∈ jobs, P j)
    (hids : (jobs.map Job.id).Nodup) {j : Job} (hj : j ∈ jobs)
    (haccepts : Crontab.accepts now j.cron = true) {options : List TaskOption}
    (hoptions : TaskOption.ofJobOptions j.options = .ok options) :
    ((s.sync now jobs).2.table.lookup j.id).isSome := by
  obtain ⟨a, hlookup, -, -, hentry⟩ := sync_eq_of_sound h now hjobs hids
  rw [hlookup, registration]
  -- without a registration that is kept the job is due, and it is the crontab that decides
  rcases hkept : kept s.table jobs a j.id with - | r
  · have hblank : Text.blank j.cron = false := by
      by_contra hnot
      rw [Crontab.accepts_of_blank (by simpa using hnot) now] at haccepts
      cases haccepts
    have hdue : j ∈ due s.table jobs a := mem_due hj hkept hblank
    -- it is the only one that is due with its id, so it is the one that is found
    have hfind := find?_key_of_mem (hids.sublist (due_sublist.map Job.id)) hdue
    rw [hfind]
    show (Scheduler.granted (a.entry j.id) j).isSome
    rw [isSome_granted_of_due hentry hdue, takes_eq_accepts hoptions]
    exact haccepts
  · rfl

/-- A job without a current registration has one after a pass just if it is taken. -/
theorem lookup_sync_of_pending (h : Sound P s.traced) (now : Instant) (hjobs : ∀ j ∈ jobs, P j)
    (hids : (jobs.map Job.id).Nodup) {j : Job} (hj : j ∈ pending s.table jobs) :
    ((s.sync now jobs).2.table.lookup j.id).map Registration.updatedAt =
      if takes now j then some j.updatedAt else none := by
  obtain ⟨a, hlookup, -, hremoval, hentry⟩ := sync_eq_of_sound h now hjobs hids
  have hmem : j ∈ jobs := (List.mem_filter.mp hj).1
  have hkept : kept s.table jobs a j.id = none := kept_of_mem_pending hremoval hids hj
  rw [hlookup, registration, hkept]
  by_cases hblank : Text.blank j.cron = true
  · -- it is left out, and the crontab would not take it
    have hnot : takes now j = false := by simp [takes, Crontab.accepts_of_blank hblank]
    have hnone : ((due s.table jobs a).find? fun i => i.id = j.id) = none := by
      refine List.find?_eq_none.mpr fun i hi => ?_
      intro hid
      obtain rfl : i = j :=
        List.inj_on_of_nodup_map hids (due_sublist.subset hi) hmem (of_decide_eq_true hid)
      obtain ⟨-, hleft⟩ := List.mem_filter.mp hi
      simp [leftOut, hblank] at hleft
    rw [hnone, hnot]
    rfl
  · have hdue : j ∈ due s.table jobs a := mem_due hmem hkept (by simpa using hblank)
    rw [find?_key_of_mem (hids.sublist (due_sublist.map Job.id)) hdue]
    exact granted_of_due hentry hdue

/-- A job whose id has no registration has one after a pass just if it is taken. -/
theorem lookup_sync_of_new (h : Sound P s.traced) (now : Instant) (hjobs : ∀ j ∈ jobs, P j)
    (hids : (jobs.map Job.id).Nodup) {j : Job} (hj : j ∈ jobs) (hnew : s.table.lookup j.id = none) :
    ((s.sync now jobs).2.table.lookup j.id).map Registration.updatedAt =
      if takes now j then some j.updatedAt else none :=
  lookup_sync_of_pending h now hjobs hids
    (List.mem_filter.mpr ⟨hj, by rw [Registrations.isCurrent, hnew]; rfl⟩)

/-- What a pass reports, in terms of the jobs alone. -/
theorem report_sync (h : Sound P s.traced) (now : Instant) (hjobs : ∀ j ∈ jobs, P j)
    (hids : (jobs.map Job.id).Nodup) :
    (s.sync now jobs).1 =
      { added := (pending s.table jobs).countP (takes now)
        removed := (stale s.table jobs).length
        failedAdds := (pending s.table jobs).countP fun j => !Text.blank j.cron && !takes now j
        skipped := (pending s.table jobs).countP fun j => Text.blank j.cron } := by
  obtain ⟨a, -, hreport, hremoval, hentry⟩ := sync_eq_of_sound h now hjobs hids
  -- no old registration stands in the way, since the crontab refuses no removal
  have hdue := due_eq hremoval hids
  rw [hreport, report, SyncReport.mk.injEq]
  refine ⟨?_, ?_, ?_, ?_, ?_⟩
  · rw [List.countP_congr fun j hj => by rw [isSome_granted_of_due hentry hj], hdue, List.countP_filter]
    refine List.countP_congr fun j _ => ?_
    by_cases hblank : Text.blank j.cron = true
    · simp [takes, Crontab.accepts_of_blank hblank]
    · simp [hblank]
  · exact List.countP_eq_length.mpr hremoval
  · refine List.countP_eq_zero.mpr fun p hp => ?_
    simp [hremoval p hp]
  · rw [List.countP_congr fun j hj => by rw [isSome_granted_of_due hentry hj], hdue, List.countP_filter]
    refine List.countP_congr fun j _ => ?_
    rw [Bool.and_comm]
  · exact List.countP_congr fun j hj => by rw [leftOut_of_mem_pending hremoval hids hj]

/-- What a pass reports when there is one more job, whose id has no registration. -/
theorem report_sync_of_new (h : Sound P s.traced) (now : Instant) (hjobs : ∀ j ∈ jobs, P j)
    (hids : (jobs.map Job.id).Nodup) {j : Job} (hj : j ∈ jobs) (hnew : s.table.lookup j.id = none) :
    let others := (s.sync now (jobs.filter fun i => i.id ≠ j.id)).1
    (s.sync now jobs).1 =
      { others with
        added := others.added + (takes now j).toNat
        failedAdds := others.failedAdds + (!Text.blank j.cron && !takes now j).toNat
        skipped := others.skipped + (Text.blank j.cron).toNat } := by
  have hothers := report_sync h now (fun i hi => hjobs i (List.mem_filter.mp hi).1)
    (hids.sublist ((List.filter_sublist (p := fun i : Job => i.id ≠ j.id)).map Job.id))
  -- the job stands somewhere among the others, and is counted once
  obtain ⟨before, after, rfl⟩ := List.append_of_mem hj
  have hne : (before ++ j :: after).filter (fun i => i.id ≠ j.id) = before ++ after := by
    rw [List.map_append, List.map_cons, List.nodup_middle, List.nodup_cons, ← List.map_append]
      at hids
    have hnot : ∀ i ∈ before ++ after, decide (i.id ≠ j.id) = true :=
      fun i hi => decide_eq_true fun hid => hids.1 (hid ▸ List.mem_map_of_mem hi)
    rw [← List.filter_eq_self.mpr hnot, List.filter_append, List.filter_append,
      List.filter_cons_of_neg (by simp)]
  have hcurrent : s.table.isCurrent j = false := by rw [Registrations.isCurrent, hnew]
  have hpending : ∀ p : Job → Bool, (pending s.table (before ++ j :: after)).countP p =
      (pending s.table (before ++ after)).countP p + (p j).toNat := by
    intro p
    simp only [pending, List.filter_append, List.filter_cons, hcurrent, Bool.not_false, if_true,
      List.countP_append, List.countP_cons]
    cases p j <;> simp only [Bool.toNat_true, Bool.toNat_false, if_true, Bool.false_eq_true,
      if_false] <;> omega
  have hstale : stale s.table (before ++ j :: after) = stale s.table (before ++ after) :=
    List.filter_congr fun p _ => by simp [current, hcurrent]
  rw [hne] at hothers ⊢
  rw [hothers, report_sync h now hjobs hids, hpending, hpending, hpending, hstale]

end Pass

end Sound
end Scheduler
end Courier

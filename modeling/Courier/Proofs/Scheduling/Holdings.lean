import Courier.Proofs.Scheduling.Entries

/-!
What a scheduler holds.

`Scheduler.holding` says what a scheduler of a crontab holds for a job, without the ids of entries:
the timestamp of its registration, and the schedule, task and options of its entry.  What an
operation does to it can be said for each id on its own, in one equation that holds of all ids; two
operations are then compared by comparing the equations.

What a job is given is a matter of the job and the clock alone (`grant`): what it says, if the
crontab takes it.  This needs no queue, since a crontab takes an expression or not whatever else it
holds.

All of it is about schedulers whose table and crontab belong together (`Consistent`), as otherwise a
registration could stand for the entry of another job.  Every scheduler that begins with nothing is
so (`Reached.consistent`).

Main statements: a job that is added has afterwards just what it is granted (`Consistent.add`),
after a pass just the jobs that were read have something (`Consistent.sync`), and schedulers that
hold the same are the same up to the ids of entries (`Consistent.alike`).
-/

namespace Courier

open Time Crontab

/-- What is held for a job that is registered. -/
structure Holding where
  updatedAt : Instant
  schedule : Cron.Schedule
  task : Task
  options : List TaskOption

/-- What an entry runs, and when. -/
def Crontab.Entry.work (e : Crontab.Entry) : Cron.Schedule × Task × List TaskOption :=
  (e.schedule, e.task, e.options)

/-- What the entry of a job runs, and when. -/
def Holding.work (x : Holding) : Cron.Schedule × Task × List TaskOption :=
  (x.schedule, x.task, x.options)

/-- What is held for a job once it is registered, if its expression and its options can be read. -/
def Job.holding? (j : Job) : Option Holding :=
  match Cron.Schedule.parse j.cron, TaskOption.ofJobOptions j.options with
  | .ok schedule, .ok options => some ⟨j.updatedAt, schedule, Task.ofJob j, options⟩
  | _, _ => none

theorem Crontab.Entry.IsOf.holding {e : Crontab.Entry} {j : Job} (h : e.IsOf j) :
    j.holding? = some ⟨j.updatedAt, e.schedule, e.task, e.options⟩ := by
  obtain ⟨hschedule, htask, hoptions⟩ := h
  rw [Job.holding?, hschedule, hoptions, htask]

namespace Scheduler

/-- What a table and its crontab hold for a job. -/
def holdingOf (t : Registrations) (c : Crontab) (id : String) : Option Holding :=
  (t.lookup id).bind fun r => (c.entries.lookup r.entry).map fun e =>
    ⟨r.updatedAt, e.schedule, e.task, e.options⟩

/-- What a scheduler holds for a job. -/
def holding (s : Scheduler Daemon) (id : String) : Option Holding :=
  holdingOf s.table s.queue.crontab id

/-- What a job is given when it is offered. -/
def grant (now : Instant) (j : Job) : Option Holding := if takes now j then j.holding? else none

/-- A job that is taken has something to be given. -/
theorem updatedAt_grant (now : Instant) (j : Job) :
    (grant now j).map Holding.updatedAt = if takes now j then some j.updatedAt else none := by
  unfold grant
  cases htakes : takes now j with
  | false => rfl
  | true =>
    obtain ⟨hoptions, haccepts⟩ := Bool.and_eq_true_iff.mp htakes
    unfold accepts at haccepts
    unfold Job.holding?
    rcases hmeaning : TaskOption.ofJobOptions j.options with fault | options
    · simp [hmeaning, Except.isOk, Except.toBool] at hoptions
    · -- a job that is taken has options and a schedule, so neither can be missing
      rcases hparse : Cron.Schedule.parse j.cron with e | schedule
      · simp [hparse] at haccepts
      · rfl

theorem isSome_grant (now : Instant) (j : Job) : (grant now j).isSome = takes now j := by
  rw [← Option.isSome_map, updatedAt_grant]
  cases takes now j <;> rfl

theorem grant_of_not_schedulable {now : Instant} {j : Job} (henabled : j.enabled = true)
    (hnot : ¬ j.schedulable = true) : grant now j = none := by
  have hblank : Text.blank j.cron = true := by simpa [Job.schedulable, henabled] using hnot
  simp [grant, takes, accepts_of_blank hblank]

/-! ### Table and crontab -/

namespace Booked

variable {P : Job → Prop} {t : Registrations} {c : Crontab}

/-- Every registration has its entry. -/
theorem holdingOf_eq (h : Booked P t c) {id : String} {r : Registration}
    (hr : t.lookup id = some r) :
    ∃ e, c.entries.lookup r.entry = some e ∧
      holdingOf t c id = some ⟨r.updatedAt, e.schedule, e.task, e.options⟩ := by
  obtain ⟨e, he⟩ := Option.isSome_iff_exists.mp
    (mem_keys_iff_isSome.mp (h.live (mem_of_lookup hr)))
  exact ⟨e, he, by simp [holdingOf, hr, he]⟩

theorem updatedAt_holdingOf (h : Booked P t c) (id : String) :
    (holdingOf t c id).map Holding.updatedAt = (t.lookup id).map Registration.updatedAt := by
  rcases hr : t.lookup id with - | r
  · simp [holdingOf, hr]
  · obtain ⟨e, -, heq⟩ := h.holdingOf_eq hr
    simp [heq]

/-- What is held for a job goes with its registration, and all else stays. -/
theorem holdingOf_erase (h : Booked P t c) {id : String} {r : Registration}
    (hr : t.lookup id = some r) (k : String) :
    holdingOf (Registrations.erase id t)
        { c with entries := c.entries.filter fun e => e.1 ≠ r.entry } k =
      if k = id then none else holdingOf t c k := by
  unfold holdingOf
  rw [Registrations.lookup_erase]
  by_cases hk : k = id
  · simp [hk]
  · rw [if_neg hk, if_neg hk]
    rcases hr' : t.lookup k with - | r'
    · rfl
    · -- the entry that goes belongs to no other registration
      have hne : r'.entry ≠ r.entry := by
        intro hentry
        exact hk (congrArg Prod.fst
          (h.owner_unique (mem_of_lookup hr') (mem_of_lookup hr) hentry))
      have hlookup := lookup_filter_key (fun n => decide (n ≠ r.entry)) c.entries r'.entry
      simp only [Option.bind_some, hlookup, hne, ne_eq, not_false_eq_true, decide_true, if_true]

/-- What is held for a job comes with its registration, and all else stays. -/
theorem holdingOf_insert (h : Booked P t c) {j : Job} {e : Crontab.Entry} (he : e.IsOf j)
    (k : String) :
    holdingOf (Registrations.insert j.id ⟨c.fresh, j.updatedAt⟩ t)
        { c with entries := c.entries ++ [(c.fresh, e)], fresh := c.fresh + 1 } k =
      if k = j.id then j.holding? else holdingOf t c k := by
  have hnew : c.entries.lookup c.fresh = none :=
    lookup_eq_none_iff_not_mem_keys.mpr fun hn => Nat.lt_irrefl _ (h.fresh _ hn)
  unfold holdingOf
  rw [Registrations.lookup_insert]
  by_cases hk : k = j.id
  · simp [hk, List.lookup_append, hnew, he.holding]
  · rw [if_neg hk, if_neg hk]
    rcases hr : t.lookup k with - | r
    · rfl
    · obtain ⟨e', he', -⟩ := h.holdingOf_eq hr
      simp [List.lookup_append, he']

end Booked

/-! ### The operations of a scheduler -/

/-- The table of a scheduler and its crontab belong together. -/
def Consistent (s : Scheduler Daemon) : Prop := Booked (fun _ => True) s.table s.queue.crontab

namespace Consistent

variable {s : Scheduler Daemon}

theorem isSome_holding (h : Consistent s) (id : String) :
    (s.holding id).isSome = (s.table.lookup id).isSome := by
  have hupdated := congrArg Option.isSome (h.updatedAt_holdingOf id)
  rw [Option.isSome_map, Option.isSome_map] at hupdated
  exact hupdated

theorem holding_eq_none_iff (h : Consistent s) {id : String} :
    s.holding id = none ↔ s.table.lookup id = none := by
  rw [← Option.not_isSome_iff_eq_none, isSome_holding h, Option.not_isSome_iff_eq_none]

theorem unregister (h : Consistent s) (id : String) :
    (s.unregister id).1 = .ok () ∧ Consistent (s.unregister id).2 ∧
      ∀ k, (s.unregister id).2.holding k = if k = id then none else s.holding k := by
  rcases hlookup : s.table.lookup id with - | r
  · rw [unregister_of_none hlookup]
    refine ⟨rfl, h, fun k => ?_⟩
    split_ifs with hk
    · rw [hk, h.holding_eq_none_iff.mpr hlookup]
    · rfl
  · have hlive : (s.queue.crontab.entries.lookup r.entry).isSome :=
      mem_keys_iff_isSome.mp (h.live (mem_of_lookup hlookup))
    have hcrontab : s.queue.crontab.unregister r.entry = .ok { s.queue.crontab with
        entries := s.queue.crontab.entries.filter fun e => e.1 ≠ r.entry } := if_pos hlive
    have hqueue := Daemon.unregister_eq_of_ok (d := s.queue) hcrontab
    unfold Scheduler.unregister
    simp only [hlookup, hqueue]
    exact ⟨trivial, h.erase hlookup, h.holdingOf_erase hlookup⟩

/-- A job without a registration is given what it is granted, and refused if that is nothing. -/
theorem register (h : Consistent s) (now : Instant) {j : Job} (hnone : s.holding j.id = none) :
    (s.register now j).1.isOk = takes now j ∧ Consistent (s.register now j).2 ∧
      ∀ k, (s.register now j).2.holding k = if k = j.id then grant now j else s.holding k := by
  -- if nothing is granted then nothing changes, as nothing was there
  have hkept : grant now j = none →
      ∀ k, s.holding k = if k = j.id then grant now j else s.holding k := by
    intro hgrant k
    split_ifs with hk
    · rw [hk, hnone, hgrant]
    · rfl
  unfold Scheduler.register
  rcases hoptions : TaskOption.ofJobOptions j.options with ⟨kind, fault⟩ | options
  · have htakes : takes now j = false := by
      rw [takes, hoptions]
      rfl
    exact ⟨by simp [htakes, Except.isOk, Except.toBool], h, hkept (by simp [grant, htakes])⟩
  · rcases s.queue.crontab.register_cases now j.cron (Task.ofJob j) options with
      ⟨e, hcrontab, haccepts⟩ | ⟨e, hcrontab, haccepts, hschedule, htask, hopts⟩
    · have hqueue := Daemon.register_eq_of_error (d := s.queue) hcrontab
      have htakes : takes now j = false := (takes_eq_accepts hoptions now).trans haccepts
      simp only [hqueue]
      exact ⟨by simp [htakes, Except.isOk, Except.toBool], h, hkept (by simp [grant, htakes])⟩
    · have hqueue := Daemon.register_eq_of_ok (d := s.queue) hcrontab
      have htakes : takes now j = true := (takes_eq_accepts hoptions now).trans haccepts
      have hof : e.IsOf j := ⟨hschedule, htask, by rw [hoptions, hopts]⟩
      have hgrant : grant now j = j.holding? := if_pos htakes
      simp only [hqueue]
      refine ⟨by simp [htakes, Except.isOk, Except.toBool],
        h.insert trivial (h.holding_eq_none_iff.mp hnone) hof, fun k => ?_⟩
      rw [hgrant]
      exact h.holdingOf_insert hof k

/-! #### One job -/

theorem remove (h : Consistent s) (id : String) :
    (s.remove id).1 = .ok () ∧ Consistent (s.remove id).2 ∧
      ∀ k, (s.remove id).2.holding k = if k = id then none else s.holding k := by
  obtain ⟨hok, hconsistent, hholding⟩ := h.unregister id
  unfold Scheduler.remove
  generalize s.unregister id = result at hok hconsistent hholding
  obtain ⟨answer, s'⟩ := result
  obtain rfl : answer = .ok () := hok
  exact ⟨rfl, hconsistent, hholding⟩

/-- A job that is added has what it is granted afterwards, and it is refused if that is nothing. -/
theorem add (h : Consistent s) (now : Instant) (j : Job) :
    Consistent (s.add now j).2 ∧
      (∀ k, (s.add now j).2.holding k =
        if k = j.id then (if j.schedulable then grant now j else none) else s.holding k) ∧
      (j.schedulable = true → takes now j = false →
        ∃ e, (s.add now j).1 = .error (.register j.id e)) := by
  obtain ⟨hok, hconsistent, hholding⟩ := h.remove j.id
  unfold Scheduler.add
  generalize s.remove j.id = result at hok hconsistent hholding
  obtain ⟨answer, s'⟩ := result
  obtain rfl : answer = .ok () := hok
  by_cases hschedulable : j.schedulable = true
  · have hnone : s'.holding j.id = none := by rw [hholding j.id, if_pos rfl]
    obtain ⟨hisOk, hconsistent', hholding'⟩ :=
      Consistent.register (s := s') hconsistent now (j := j) hnone
    simp only [hschedulable, if_true]
    generalize s'.register now j = result at hisOk hconsistent' hholding'
    have hall : ∀ k, result.2.holding k = if k = j.id then grant now j else s.holding k := by
      intro k
      rw [hholding' k, hholding k]
      split_ifs <;> rfl
    obtain ⟨e | ⟨⟩, s''⟩ := result
    · exact ⟨hconsistent', hall, fun _ _ => ⟨e, rfl⟩⟩
    · refine ⟨hconsistent', hall, fun _ htakes => ?_⟩
      rw [htakes] at hisOk
      cases hisOk
  · simp only [hschedulable]
    exact ⟨hconsistent, hholding, fun h => by simp at h⟩

/-! #### All jobs -/

theorem unregisterAll (h : Consistent s) (ids : List String) :
    (s.unregisterAll ids).1 = [] ∧ Consistent (s.unregisterAll ids).2 ∧
      ∀ k, (s.unregisterAll ids).2.holding k = if k ∈ ids then none else s.holding k := by
  induction ids generalizing s with
  | nil => exact ⟨rfl, h, fun k => by simp [Scheduler.unregisterAll]⟩
  | cons id ids ih =>
    obtain ⟨hok, hconsistent, hholding⟩ := h.unregister id
    unfold Scheduler.unregisterAll
    generalize s.unregister id = result at hok hconsistent hholding
    obtain ⟨answer, s'⟩ := result
    obtain rfl : answer = .ok () := hok
    obtain ⟨hnil, hconsistent', hholding'⟩ := ih hconsistent
    refine ⟨hnil, hconsistent', fun k => ?_⟩
    rw [hholding' k, hholding k]
    by_cases hk : k = id <;> simp [hk]

/-- Jobs without registrations are given what they are granted. -/
theorem registerAll (h : Consistent s) (now : Instant) {jobs : List Job}
    (hids : (jobs.map Job.id).Nodup) (hnone : ∀ j ∈ jobs, s.holding j.id = none)
    (report : SyncReport) :
    Consistent (registerAll now [] s jobs report).2 ∧
      ∀ k, (registerAll now [] s jobs report).2.holding k =
        match jobs.find? fun j => j.id = k with
        | some j => grant now j
        | none => s.holding k := by
  induction jobs generalizing s report with
  | nil => exact ⟨h, fun k => rfl⟩
  | cons j jobs ih =>
    obtain ⟨hj, hrest⟩ := List.nodup_cons.mp hids
    have hnone' : ∀ i ∈ jobs, s.holding i.id = none :=
      fun i hi => hnone i (List.mem_cons_of_mem _ hi)
    have hfind : (jobs.find? fun i => i.id = j.id) = none := by
      refine List.find?_eq_none.mpr fun i hi => ?_
      simpa using fun hij : i.id = j.id => hj (hij ▸ List.mem_map_of_mem hi)
    -- a blank expression is left out, and it would not have been granted anything
    by_cases hskip : leavesOut [] j = true
    · have htakes : takes now j = false := by
        have hblank : Text.blank j.cron = true := by simpa [leavesOut] using hskip
        simp [takes, accepts_of_blank hblank]
      rw [registerAll_cons_of_leavesOut hskip]
      obtain ⟨hconsistent, hholding⟩ :=
        ih h hrest hnone' { report with skipped := report.skipped + 1 }
      refine ⟨hconsistent, fun k => ?_⟩
      rw [hholding k, List.find?_cons]
      -- the jobs after it have other ids
      by_cases hk : j.id = k
      · subst hk
        simp [hfind, hnone j List.mem_cons_self, grant, htakes]
      · simp [hk]
    · obtain ⟨-, hconsistent, hholding⟩ := h.register now (hnone j List.mem_cons_self)
      rw [registerAll_cons_of_tries hskip]
      generalize (s.register now j).2 = s' at hconsistent hholding
      have hnone'' : ∀ i ∈ jobs, s'.holding i.id = none := by
        intro i hi
        have hne : i.id ≠ j.id := fun hij => hj (hij ▸ List.mem_map_of_mem hi)
        rw [hholding i.id, if_neg hne, hnone' i hi]
      obtain ⟨hconsistent', hholding'⟩ := ih hconsistent hrest hnone'' _
      refine ⟨hconsistent', fun k => ?_⟩
      rw [hholding' k, List.find?_cons]
      by_cases hk : j.id = k
      · subst hk
        simp [hfind, hholding]
      · have hk' : ¬ k = j.id := fun heq => hk heq.symm
        simp [hk, hholding, hk']

open Reconciliation

/-- After a pass just the jobs that were read have something: what they had if their registration
was current, and else what they are granted. -/
theorem sync (h : Consistent s) (now : Instant) {jobs : List Job} (hids : (jobs.map Job.id).Nodup) :
    Consistent (s.sync now jobs).2 ∧
      ∀ k, (s.sync now jobs).2.holding k =
        match jobs.find? fun j => j.id = k with
        | some j => if s.table.isCurrent j then s.holding k else grant now j
        | none => none := by
  obtain ⟨hnil, hconsistent, hholding⟩ := h.unregisterAll ((stale s.table jobs).map Prod.fst)
  -- the first half of the pass leaves what is current
  have hremoved : ∀ k, (s.unregisterAll ((stale s.table jobs).map Prod.fst)).2.holding k =
      if current s.table jobs k then s.holding k else none := by
    intro k
    rw [hholding k]
    simp only [mem_stale]
    rcases hk : s.table.lookup k with - | r
    · simp [h.holding_eq_none_iff.mpr hk]
    · cases current s.table jobs k <;> simp
  rw [sync_eq]
  generalize s.unregisterAll ((stale s.table jobs).map Prod.fst) = result
    at hnil hconsistent hremoved
  obtain ⟨failed, s'⟩ := result
  obtain rfl : failed = [] := hnil
  have hpending : ((pending s.table jobs).map Job.id).Nodup :=
    hids.sublist (List.filter_sublist.map _)
  have hnone : ∀ j ∈ pending s.table jobs, s'.holding j.id = none := by
    intro j hj
    have hcurrent := current_of_mem_pending hids hj
    simpa [hcurrent] using hremoved j.id
  obtain ⟨hconsistent', hholding'⟩ := registerAll hconsistent now hpending hnone
    { removed := (stale s.table jobs).length - 0, failedRemovals := 0 }
  refine ⟨hconsistent', fun k => (hholding' k).trans ?_⟩
  -- no job was read for this id, so its registration went in the first half
  rcases hfind : jobs.find? fun j => j.id = k with - | j
  · have hnot : ∀ i ∈ jobs, ¬ i.id = k := by simpa using List.find?_eq_none.mp hfind
    have hnone' : ((pending s.table jobs).find? fun j => j.id = k) = none :=
      List.find?_eq_none.mpr fun i hi => by simpa using hnot i (List.mem_filter.mp hi).1
    have hcurrent : current s.table jobs k = false :=
      List.any_eq_false.mpr fun i hi => by simp [hnot i hi]
    simpa [hfind, hnone', hcurrent] using hremoved k
  · have hj : j ∈ jobs := List.mem_of_find?_eq_some hfind
    obtain rfl : j.id = k := by simpa using List.find?_some hfind
    by_cases hcurrent : s.table.isCurrent j = true
    · -- the only job of this id is not to be registered anew
      have hnone' : ((pending s.table jobs).find? fun i => i.id = j.id) = none := by
        refine List.find?_eq_none.mpr fun i hi => ?_
        obtain ⟨hmem, hstale⟩ := List.mem_filter.mp hi
        intro hid
        obtain rfl : i = j := List.inj_on_of_nodup_map hids hmem hj (of_decide_eq_true hid)
        simp [hcurrent] at hstale
      have hkept : current s.table jobs j.id = true :=
        List.any_eq_true.mpr ⟨j, hj, by simp [hcurrent]⟩
      simpa [hfind, hnone', hcurrent, hkept] using hremoved j.id
    · have hmem : j ∈ pending s.table jobs := List.mem_filter.mpr ⟨hj, by simp [hcurrent]⟩
      simp [hfind, find?_key_of_mem hpending hmem, hcurrent]

end Consistent

/-! ### Up to the ids of entries -/

/-- Whether two schedulers are the same up to the ids of their entries.

* `holdings`: the entries of a job run the same.
* `entries`: there are no other entries in one of them. -/
structure Alike (s s' : Scheduler Daemon) : Prop where
  registrations : ∀ id, (s.table.lookup id).map Registration.updatedAt =
    (s'.table.lookup id).map Registration.updatedAt
  holdings : ∀ id, s.holding id = s'.holding id
  entries : (s.queue.crontab.entries.map fun e => e.2.work).Perm
    (s'.queue.crontab.entries.map fun e => e.2.work)

namespace Consistent

variable {s s' : Scheduler Daemon}

/-- Whether a registration is current can be seen from what is held. -/
theorem isCurrent_eq (h : Consistent s) (i : Job) :
    s.table.isCurrent i =
      ((s.holding i.id).map Holding.updatedAt).any fun updatedAt => i.updatedAt ≤ updatedAt := by
  rw [holding, h.updatedAt_holdingOf, Registrations.isCurrent]
  rcases s.table.lookup i.id with - | r <;> rfl

/-- What is held determines the timestamp of the registration. -/
theorem registration_eq (h : Consistent s) (h' : Consistent s') {id : String}
    (heq : s.holding id = s'.holding id) :
    (s.table.lookup id).map Registration.updatedAt =
      (s'.table.lookup id).map Registration.updatedAt := by
  rw [← h.updatedAt_holdingOf id, ← h'.updatedAt_holdingOf id]
  exact congrArg _ heq

/-- The entries are those of the registered jobs. -/
theorem entries_perm (h : Consistent s) :
    (s.queue.crontab.entries.map fun e => e.2.work).Perm
      ((s.table.map Prod.fst).filterMap fun id => (s.holding id).map Holding.work) := by
  let work? : EntryId → Option (Cron.Schedule × Task × List TaskOption) :=
    fun n => (s.queue.crontab.entries.lookup n).map Entry.work
  have hentries : (s.queue.crontab.entries.map fun e => e.2.work) =
      (s.queue.crontab.entries.map Prod.fst).filterMap work? := by
    rw [List.filterMap_map, ← List.filterMap_eq_map]
    refine List.filterMap_congr fun e he => ?_
    simp [work?, h.entries.lookup_of_mem (k := e.1) (v := e.2) he]
  have htable : (s.table.map fun p => p.2.entry).filterMap work? =
      (s.table.map Prod.fst).filterMap fun id => (s.holding id).map Holding.work := by
    rw [List.filterMap_map, List.filterMap_map]
    refine List.filterMap_congr fun p hp => ?_
    have hlookup := h.table.lookup_of_mem (k := p.1) (v := p.2) hp
    obtain ⟨e, he, hholding⟩ := h.holdingOf_eq hlookup
    show work? p.2.entry = (holdingOf s.table s.queue.crontab p.1).map Holding.work
    rw [hholding]
    simp [work?, he, Entry.work, Holding.work]
  rw [hentries, ← htable]
  exact h.matched.symm.filterMap work?

theorem mem_keys_iff (h : Consistent s) {id : String} :
    id ∈ s.table.map Prod.fst ↔ (s.holding id).isSome := by
  rw [mem_keys_iff_isSome, h.isSome_holding]

/-- Schedulers that hold the same are the same up to the ids of their entries. -/
theorem alike (h : Consistent s) (h' : Consistent s') (heq : ∀ id, s.holding id = s'.holding id) :
    Alike s s' := by
  refine ⟨fun id => h.registration_eq h' (heq id), heq, ?_⟩
  have hkeys : (s.table.map Prod.fst).Perm (s'.table.map Prod.fst) := by
    refine (List.perm_ext_iff_of_nodup h.table h'.table).mpr fun id => ?_
    rw [h.mem_keys_iff, h'.mem_keys_iff, heq]
  refine h.entries_perm.trans ?_
  rw [show s.holding = s'.holding from funext heq]
  exact (hkeys.filterMap _).trans h'.entries_perm.symm

/-- If one holds something more for a job, it has one entry more. -/
theorem entries_perm_cons (h : Consistent s) (h' : Consistent s') {id : String} {x : Holding}
    (hnone : s.holding id = none) (hx : s'.holding id = some x)
    (hothers : ∀ k ≠ id, s.holding k = s'.holding k) :
    (s'.queue.crontab.entries.map fun e => e.2.work).Perm
      (x.work :: s.queue.crontab.entries.map fun e => e.2.work) := by
  have hnot : id ∉ s.table.map Prod.fst := by simp [h.mem_keys_iff, hnone]
  have hkeys : (s'.table.map Prod.fst).Perm (id :: s.table.map Prod.fst) := by
    refine (List.perm_ext_iff_of_nodup h'.table (List.nodup_cons.mpr ⟨hnot, h.table⟩)).mpr ?_
    intro k
    rw [List.mem_cons, h.mem_keys_iff, h'.mem_keys_iff]
    by_cases hk : k = id
    · simp [hk, hx]
    · simp [hk, hothers k hk]
  refine h'.entries_perm.trans ((hkeys.filterMap _).trans ?_)
  have hrest : ((s.table.map Prod.fst).filterMap fun k => (s'.holding k).map Holding.work) =
      (s.table.map Prod.fst).filterMap fun k => (s.holding k).map Holding.work := by
    refine List.filterMap_congr fun k hk => ?_
    rw [hothers k (ne_of_mem_of_not_mem hk hnot)]
  rw [List.filterMap_cons_some (by rw [hx]; rfl), hrest]
  exact h.entries_perm.symm.cons _

end Consistent

/-! ### Whatever has happened before -/

/-- The schedulers of a daemon that can come about.

* `fire`: the crontab is looked through out of turn.
* `handle`: tasks are taken from the channel, or it is closed. -/
inductive Reached : Scheduler Daemon → Prop
  | fresh (channel : Channel) (period : Nat) : Reached (fresh channel period)
  | act {s : Scheduler Daemon} (h : Reached s) (act : Act) (hact : act.Distinct) :
    Reached (s.perform act)
  | fire {s : Scheduler Daemon} (h : Reached s) (now : Instant) :
    Reached ⟨s.table, (s.queue.fireDue now).2⟩
  | handle {s : Scheduler Daemon} (h : Reached s) (channel : Channel) :
    Reached ⟨s.table, { s.queue with channel }⟩

theorem Reached.consistent {s : Scheduler Daemon} (h : Reached s) : Consistent s := by
  induction h with
  | fresh channel period => exact Booked.empty _
  | @act s h act hact ih =>
    have hsound : Sound (fun _ => True) s.traced := ⟨ih, by simp⟩
    have hids : ∀ a ∈ [act], a.Distinct := by simpa using hact
    exact (hsound.run_traced (fun _ _ _ _ => trivial) hids).booked
  | @fire s h now ih => exact Booked.fireDue ih now s.queue.channel
  | handle h channel ih => exact ih

end Scheduler
end Courier

import Courier.Proofs.Scheduling.Entries

/-!
A pass after a pass.

After a pass every registration is current, and a job without one has no cron expression or was not
taken.  While neither the jobs nor the clock change, this stays so: the crontab takes an expression
or not whatever else it holds, and gives the same reason every time (`Crontab.objection`).  So the
next pass has nothing to remove and nothing to add, and only repeats the offers that have just been
refused.

Every answer in a record is one that some crontab gives (`Faithful`), so a refusal has the words
that belong to its expression.  Then the refused calls of the first pass are those of the jobs that
are not taken, in order (`refused_calls_sync`), and the second pass makes just these (`sync_sync`).

Main statement: in every state that a scheduler with a crontab can get into, a second pass over the
same jobs at the same instant changes nothing (`sync_idempotent`).
-/

namespace Courier

open Time Crontab

namespace Crontab

/-- Why the crontab does not take an expression. -/
def objection (expr : String) : SchedulerError :=
  match Cron.Schedule.parse expr with
  | .error e => .invalidCron expr (.schedule e)
  | .ok _ => .invalidCron expr .exhausted

theorem register_of_not_accepts {now : Instant} {expr : String} (h : accepts now expr = false)
    (c : Crontab) (task : Task) (options : List TaskOption) :
    c.register now expr task options = .error (objection expr) := by
  unfold register objection
  unfold accepts at h
  rcases hparse : Cron.Schedule.parse expr with e | schedule
  · rfl
  · rw [hparse] at h
    have hnext : schedule.next now = none := by simpa using h
    simp only [hnext]

end Crontab

namespace Scheduler

/-! ### The answers in a record -/

/-- Whether a call has the answer that some queue gives to it. -/
def Call.Answered (κ : Type) [TaskQueue κ] : Call → Prop
  | .register now expr task options answer =>
    ∃ q : κ, (TaskQueue.register q now expr task options).1 = answer
  | .unregister entry answer => ∃ q : κ, (TaskQueue.unregister q entry).1 = answer

/-- The calls in the record of a scheduler have answers of its queue. -/
def Faithful {κ : Type} [TaskQueue κ] (s : Scheduler (Traced κ)) : Prop :=
  ∀ call ∈ s.queue.calls, call.Answered κ

namespace Faithful

variable {κ : Type} [TaskQueue κ] {s : Scheduler (Traced κ)}

theorem traced (s : Scheduler κ) : Faithful s.traced := by simp [Faithful]

theorem concat (h : Faithful s) (call : Call) (hcall : call.Answered κ) :
    ∀ c ∈ s.queue.calls ++ [call], c.Answered κ := by
  intro c hc
  rcases List.mem_append.mp hc with hc | hc
  · exact h c hc
  · exact List.mem_singleton.mp hc ▸ hcall

theorem unregister (h : Faithful s) (id : String) : Faithful (s.unregister id).2 := by
  unfold Scheduler.unregister
  split
  · exact h
  · rename_i r _
    have hcalls := h.concat (.unregister r.entry _) ⟨s.queue.queue, rfl⟩
    rw [Traced.unregister_eq]
    split <;> rename_i heq <;> obtain ⟨-, rfl⟩ := Prod.mk.inj heq <;> exact hcalls

theorem register (h : Faithful s) (now : Instant) (j : Job) : Faithful (s.register now j).2 := by
  unfold Scheduler.register
  split
  · exact h
  · rename_i options _
    have hcalls := h.concat (.register now j.cron (Task.ofJob j) options _)
      ⟨s.queue.queue, rfl⟩
    rw [Traced.register_eq]
    split <;> rename_i heq <;> obtain ⟨-, rfl⟩ := Prod.mk.inj heq <;> exact hcalls

theorem unregisterAll (h : Faithful s) (ids : List String) :
    Faithful (s.unregisterAll ids).2 := by
  induction ids generalizing s with
  | nil => exact h
  | cons id ids ih =>
    have hfirst := h.unregister id
    unfold Scheduler.unregisterAll
    split <;> rename_i hresult <;> rw [hresult] at hfirst <;> exact ih hfirst

theorem registerAll (h : Faithful s) (now : Instant) (failed : List String) (jobs : List Job)
    (report : SyncReport) : Faithful (registerAll now failed s jobs report).2 := by
  induction jobs generalizing s report with
  | nil => exact h
  | cons j jobs ih =>
    by_cases hskip : leavesOut failed j = true
    · rw [registerAll_cons_of_leavesOut hskip]
      exact ih h _
    · rw [registerAll_cons_of_tries hskip]
      exact ih (h.register now j) _

theorem sync (h : Faithful s) (now : Instant) (jobs : List Job) :
    Faithful (s.sync now jobs).2 := by
  rw [sync_eq]
  exact (h.unregisterAll _).registerAll now _ _ _

end Faithful

/-- Whether a call is an offer that was refused. -/
def Call.isRefused : Call → Bool
  | .register _ _ _ _ answer => !answer.isOk
  | .unregister _ _ => false

/-- The crontab gives the same reason for a refusal every time. -/
theorem Call.answer_of_answered {now : Instant} {expr : String} {task : Task}
    {options : List TaskOption} {answer : Except SchedulerError EntryId}
    (h : (Call.register now expr task options answer).Answered Daemon)
    (hrefused : accepts now expr = false) : answer = .error (objection expr) := by
  obtain ⟨d, rfl⟩ := h
  rw [Daemon.register_eq_of_error (d.crontab.register_of_not_accepts hrefused task options)]

/-! ### Jobs that are not taken -/

section NotTaken

variable {s : Scheduler (Traced Daemon)} {now : Instant}

/-- The offer of a job, when it is refused. -/
def refusedOffer (now : Instant) (j : Job) : Option Call :=
  offer now (.error (objection j.cron)) j

/-- A job that is not taken is at most offered. -/
theorem register_of_not_takes {j : Job} (h : takes now j = false) :
    (s.register now j).2 =
      ⟨s.table, ⟨s.queue.queue, s.queue.calls ++ (refusedOffer now j).toList⟩⟩ := by
  unfold Scheduler.register refusedOffer offer
  rcases hoptions : TaskOption.ofJobOptions j.options with ⟨kind, fault⟩ | options
  · simp
  · rw [takes_eq_accepts hoptions] at h
    have hqueue := Daemon.register_eq_of_error
      (s.queue.queue.crontab.register_of_not_accepts h (Task.ofJob j) options)
    simp only [Traced.register_eq, hqueue, Option.toList_some]

theorem registerAll_of_not_takes (failed : List String) {jobs : List Job}
    (h : ∀ j ∈ jobs, takes now j = false) (report : SyncReport) :
    (registerAll now failed s jobs report).2 =
      ⟨s.table, ⟨s.queue.queue,
        s.queue.calls ++ (tried failed jobs).filterMap (refusedOffer now)⟩⟩ := by
  induction jobs generalizing s report with
  | nil => simp [registerAll, tried]
  | cons j jobs ih =>
    obtain ⟨hj, hrest⟩ := List.forall_mem_cons.mp h
    by_cases hskip : leavesOut failed j = true
    · have htried : tried failed (j :: jobs) = tried failed jobs := by simp [tried, hskip]
      rw [registerAll_cons_of_leavesOut hskip, ih hrest, htried]
    · have htried : tried failed (j :: jobs) = j :: tried failed jobs := by simp [tried, hskip]
      rw [registerAll_cons_of_tries hskip, ih hrest, register_of_not_takes hj, htried]
      rcases hoffer : refusedOffer now j with - | call <;> simp [hoffer]

end NotTaken

/-! ### After a pass -/

section Pass

open Reconciliation

variable {P : Job → Prop} {s : Scheduler Daemon} {jobs : List Job} (h : Sound P s.traced)
  (now : Instant) (hjobs : ∀ j ∈ jobs, P j) (hids : (jobs.map Job.id).Nodup)

include h hjobs hids

/-- A job has a current registration after a pass if it had one before, or has been taken. -/
theorem isCurrent_sync {j : Job} (hj : j ∈ jobs) :
    (s.sync now jobs).2.table.isCurrent j = (s.table.isCurrent j || takes now j) := by
  cases hcurrent : s.table.isCurrent j with
  | true =>
    -- a registration that was current is kept
    obtain ⟨a, hlookup, -⟩ := Sound.sync_eq_of_sound h now hjobs hids
    have hkept := kept_of_isCurrent (a := a) hj hcurrent
    rw [Registrations.isCurrent] at hcurrent ⊢
    rw [hlookup, registration, hkept]
    rcases hr : s.table.lookup j.id with - | r
    · simp [hr] at hcurrent
    · simpa [hr] using hcurrent
  | false =>
    -- any other job is pending, and has a registration just if it is taken
    have hpending : j ∈ pending s.table jobs := List.mem_filter.mpr ⟨hj, by simp [hcurrent]⟩
    have hlookup := Sound.lookup_sync_of_pending h now hjobs hids hpending
    rw [Registrations.isCurrent]
    rcases hr : (s.sync now jobs).2.table.lookup j.id with - | r
    · rw [hr] at hlookup
      cases htakes : takes now j <;> simp [htakes] at hlookup ⊢
    · rw [hr] at hlookup
      cases htakes : takes now j <;> simp [htakes] at hlookup ⊢
      exact le_of_eq hlookup.symm

/-- After a pass the registrations of jobs that were read are current. -/
theorem isSome_lookup_sync {j : Job} (hj : j ∈ jobs) :
    ((s.sync now jobs).2.table.lookup j.id).isSome = (s.sync now jobs).2.table.isCurrent j := by
  rw [Registrations.isCurrent]
  rcases hr : (s.sync now jobs).2.table.lookup j.id with - | r
  · rfl
  · obtain ⟨i, hi, hij, hle⟩ := Sound.current_of_sync h now hjobs hids hr
    obtain rfl : i = j := List.inj_on_of_nodup_map hids hi hj hij
    simpa using hle

/-- After a pass table and crontab belong together. -/
theorem sound_sync : Sound P (s.sync now jobs).2.traced := by
  have hsync : (s.sync now jobs).2 = (s.traced.sync now jobs).2.bare :=
    congrArg Prod.snd (sync_bare s.traced now jobs)
  rw [hsync]
  exact (h.sync now hjobs hids).bare

theorem stale_sync : stale (s.sync now jobs).2.table jobs = [] := by
  refine List.filter_eq_nil_iff.mpr fun p hp => ?_
  have hlookup := (sound_sync h now hjobs hids).booked.table.lookup_of_mem hp
  rw [table_traced] at hlookup
  obtain ⟨j, hj, hid, -⟩ := Sound.current_of_sync h now hjobs hids hlookup
  have hcurrent : (s.sync now jobs).2.table.isCurrent j = true := by
    rw [← isSome_lookup_sync h now hjobs hids hj, hid, hlookup]
    rfl
  have hany : current (s.sync now jobs).2.table jobs p.1 = true :=
    List.any_eq_true.mpr ⟨j, hj, by simp [hid, hcurrent]⟩
  simp [hany]

/-- What is still pending after a pass are the jobs that were not taken. -/
theorem pending_sync :
    pending (s.sync now jobs).2.table jobs =
      (pending s.table jobs).filter fun j => !takes now j := by
  rw [pending, pending, List.filter_filter]
  refine List.filter_congr fun j hj => ?_
  rw [isCurrent_sync h now hjobs hids hj, Bool.not_or, Bool.and_comm]

theorem pending_sync_eq_unregistered :
    pending (s.sync now jobs).2.table jobs =
      jobs.filter fun j => ((s.sync now jobs).2.table.lookup j.id).isNone :=
  List.filter_congr fun j hj => by
    rw [← isSome_lookup_sync h now hjobs hids hj, Option.not_isSome]

theorem takes_of_mem_pending_sync {j : Job} (hj : j ∈ pending (s.sync now jobs).2.table jobs) :
    takes now j = false := by
  rw [pending_sync h now hjobs hids] at hj
  simpa using (List.mem_filter.mp hj).2

/-- The offers that are refused in a pass are those of the jobs that are not taken. -/
theorem refused_calls_sync :
    (s.traced.sync now jobs).2.queue.calls.filter Call.isRefused =
      (tried [] (pending (s.sync now jobs).2.table jobs)).filterMap (refusedOffer now) := by
  obtain ⟨a, queue, table, htraced, -, -⟩ := sync_traced_eq s h.booked.table now hids
  have hgranted := (h.sync now hjobs hids).granted
  have hfaithful : Faithful (s.traced.sync now jobs).2 := (Faithful.traced s).sync now jobs
  rw [Faithful] at hfaithful
  rw [htraced] at hgranted hfaithful ⊢
  have hremoval : ∀ p ∈ stale s.table jobs, (a.removal p.1).isOk := by
    intro p hp
    have hanswer : a.removal p.1 = .ok () := hgranted (.unregister p.2.entry (a.removal p.1))
      (List.mem_append_left _ (List.mem_map_of_mem hp))
    rw [hanswer]
    rfl
  have hdue : due s.table jobs a = tried [] (pending s.table jobs) := due_eq hremoval hids
  have hremovals : ((stale s.table jobs).map fun p =>
      Call.unregister p.2.entry (a.removal p.1)).filter Call.isRefused = [] := by
    refine List.filter_eq_nil_iff.mpr fun call hcall => ?_
    obtain ⟨p, -, rfl⟩ := List.mem_map.mp hcall
    exact Bool.false_ne_true
  have htried : tried [] (pending (s.sync now jobs).2.table jobs) =
      (due s.table jobs a).filter fun j => !takes now j := by
    rw [pending_sync h now hjobs hids, hdue, tried, tried, List.filter_filter, List.filter_filter]
    exact List.filter_congr fun j _ => Bool.and_comm _ _
  rw [htried, calls, List.filter_append, hremovals, List.nil_append, List.filter_filterMap,
    List.filterMap_filter]
  refine List.filterMap_congr fun j hj => ?_
  -- options that say nothing make no call in either pass
  rcases hoptions : TaskOption.ofJobOptions j.options with fault | options
  · simp [offer, refusedOffer, hoptions]
  · have hmem : Call.register now j.cron (Task.ofJob j) options (a.entry j.id) ∈
        calls s.table jobs a now :=
      List.mem_append_right _ (List.mem_filterMap.mpr ⟨j, hj, by simp only [offer, hoptions]⟩)
    have hok : (a.entry j.id).isOk = accepts now j.cron := hgranted _ hmem
    simp only [offer, refusedOffer, hoptions, takes_eq_accepts hoptions]
    -- what is taken is not refused; what is not taken is refused with the same words again
    cases haccepts : accepts now j.cron with
    | true => simp [Call.isRefused, hok, haccepts]
    | false =>
      have hanswer := Call.answer_of_answered (hfaithful _ hmem) haccepts
      simp [Call.isRefused, hanswer, Except.isOk, Except.toBool]

/-- A second pass only repeats the offers that were refused in the first one. -/
theorem sync_sync :
    ((s.sync now jobs).2.traced.sync now jobs).2 =
      ⟨(s.sync now jobs).2.table, ⟨(s.sync now jobs).2.queue,
        (s.traced.sync now jobs).2.queue.calls.filter Call.isRefused⟩⟩ := by
  rw [sync_eq, table_traced, stale_sync h now hjobs hids, refused_calls_sync h now hjobs hids]
  exact registerAll_of_not_takes [] (fun j hj => takes_of_mem_pending_sync h now hjobs hids hj) _

end Pass

/-! ### The second pass -/

open Reconciliation

/-- What a pass over some jobs does when there has just been one at the same instant.

* `state`: table, crontab and daemon stay just as they are.
* `traced`: the record of each pass is that of the pass.
* `calls`: the calls are the offers that were refused just before, in the same order and with the
  same answers; nothing is removed.
* `offers`: each call is for a job that still has no registration. -/
structure Repeats (s : Scheduler Daemon) (now : Instant) (jobs : List Job) : Prop where
  state : ((s.sync now jobs).2.sync now jobs).2 = (s.sync now jobs).2
  traced : s.sync now jobs = ((s.traced.sync now jobs).1, (s.traced.sync now jobs).2.bare) ∧
    (s.sync now jobs).2.sync now jobs = (((s.sync now jobs).2.traced.sync now jobs).1,
      ((s.sync now jobs).2.traced.sync now jobs).2.bare)
  calls : ((s.sync now jobs).2.traced.sync now jobs).2.queue.calls =
    (s.traced.sync now jobs).2.queue.calls.filter Call.isRefused
  offers : ∀ call ∈ ((s.sync now jobs).2.traced.sync now jobs).2.queue.calls,
    ∃ j ∈ jobs, (s.sync now jobs).2.table.lookup j.id = none ∧
      refusedOffer now j = some call
  report : ((s.sync now jobs).2.sync now jobs).1 =
    { failedAdds := (s.sync now jobs).1.failedAdds, skipped := (s.sync now jobs).1.skipped }
  failedAdds : (s.sync now jobs).1.failedAdds = jobs.countP fun j =>
    ((s.sync now jobs).2.table.lookup j.id).isNone && !Text.blank j.cron
  skipped : (s.sync now jobs).1.skipped = jobs.countP fun j =>
    ((s.sync now jobs).2.table.lookup j.id).isNone && Text.blank j.cron

theorem Sound.repeats {P : Job → Prop} {s : Scheduler Daemon} (h : Sound P s.traced)
    (now : Instant) {jobs : List Job} (hjobs : ∀ j ∈ jobs, P j)
    (hids : (jobs.map Job.id).Nodup) : Repeats s now jobs := by
  have hunregistered := pending_sync_eq_unregistered h now hjobs hids
  have hcalls : ((s.sync now jobs).2.traced.sync now jobs).2.queue.calls =
      (s.traced.sync now jobs).2.queue.calls.filter Call.isRefused := by
    rw [sync_sync h now hjobs hids]
  -- the jobs that are not taken are counted in both passes
  have hcount : ∀ p : Job → Bool, (∀ j, takes now j = true → p j = false) →
      (pending s.table jobs).countP p = (pending (s.sync now jobs).2.table jobs).countP p := by
    intro p hp
    rw [pending_sync h now hjobs hids, List.countP_filter]
    refine List.countP_congr fun j _ => ?_
    cases htakes : takes now j <;> simp [hp j, htakes]
  have hfailed := hcount (fun j => !Text.blank j.cron && !takes now j) (by simp +contextual)
  have hskipped := hcount (fun j => Text.blank j.cron) (by
    intro j htakes
    cases hblank : Text.blank j.cron with
    | true => simp [takes, accepts_of_blank hblank] at htakes
    | false => rfl)
  have hfirst := Sound.report_sync h now hjobs hids
  have hsecond := Sound.report_sync (sound_sync h now hjobs hids) now hjobs hids
  constructor
  case state =>
    have hbare := congrArg Prod.snd (sync_bare (s.sync now jobs).2.traced now jobs)
    rw [sync_sync h now hjobs hids] at hbare
    exact hbare
  case traced => exact ⟨sync_bare s.traced now jobs, sync_bare (s.sync now jobs).2.traced now jobs⟩
  case calls => exact hcalls
  case offers =>
    intro call hcall
    rw [hcalls, refused_calls_sync h now hjobs hids] at hcall
    obtain ⟨j, hj, hoffer⟩ := List.mem_filterMap.mp hcall
    have hpending := (List.mem_filter.mp hj).1
    rw [hunregistered] at hpending
    obtain ⟨hmem, hnone⟩ := List.mem_filter.mp hpending
    exact ⟨j, hmem, Option.isNone_iff_eq_none.mp hnone, hoffer⟩
  case report =>
    have hadded : (pending (s.sync now jobs).2.table jobs).countP (takes now) = 0 :=
      List.countP_eq_zero.mpr fun j hj => by simp [takes_of_mem_pending_sync h now hjobs hids hj]
    rw [hsecond, hfirst, stale_sync h now hjobs hids, hadded, hfailed, hskipped]
    rfl
  case failedAdds =>
    have hblank : ∀ j ∈ pending (s.sync now jobs).2.table jobs,
        (!Text.blank j.cron && !takes now j) = !Text.blank j.cron := by
      intro j hj
      rw [takes_of_mem_pending_sync h now hjobs hids hj]
      exact Bool.and_true _
    rw [hfirst]
    refine hfailed.trans ?_
    rw [List.countP_congr fun j hj => by rw [hblank j hj], hunregistered, List.countP_filter]
    exact List.countP_congr fun j _ => by rw [Bool.and_comm]
  case skipped =>
    rw [hfirst]
    refine hskipped.trans ?_
    rw [hunregistered, List.countP_filter]
    exact List.countP_congr fun j _ => by rw [Bool.and_comm]

/-- In every state that a scheduler with a crontab can get into, a second pass over the same jobs
at the same instant changes nothing. -/
theorem sync_idempotent (channel : Channel) (period : Nat) {acts : List Act}
    (hacts : ∀ act ∈ acts, act.Distinct) (now : Instant) {jobs : List Job}
    (hids : (jobs.map Job.id).Nodup) : Repeats ((fresh channel period).run acts) now jobs := by
  have hsound := (Sound.fresh (fun _ => True) channel period).run_traced
    (fun _ _ _ _ => trivial) hacts
  exact hsound.repeats now (fun _ _ => trivial) hids

/-- Three jobs are registered. -/
def threesome : List Act :=
  [.sync ⟨0, 0⟩ ⟨[(0, .ok (.new "kept" "mail" "0 0 * * *" ⟨0, 0⟩)),
    (0, .ok (.new "edited" "mail" "0 0 * * *" ⟨0, 0⟩)),
    (0, .ok (.new "gone" "mail" "0 0 * * *" ⟨0, 0⟩))], false⟩ 0 1000]

/-- One of them has been spoilt and another one deleted; of three new ones two are of no use. -/
def spoilt : List Job :=
  [.new "kept" "mail" "0 0 * * *" ⟨0, 0⟩, .new "edited" "mail" "never" ⟨60, 0⟩,
    .new "added" "mail" "0 6 * * *" ⟨60, 0⟩,
    (Job.new "option" "mail" "0 6 * * *" ⟨60, 0⟩).withOption ⟨"timeout", .null⟩,
    .new "blank" "mail" " " ⟨60, 0⟩]

theorem sync_idempotent_spoilt :
    (∀ act ∈ threesome, act.Distinct) ∧ (spoilt.map Job.id).Nodup ∧
      Repeats ((fresh ⟨16, [], true, false⟩ 1000).run threesome) ⟨120, 0⟩ spoilt ∧
      (((fresh ⟨16, [], true, false⟩ 1000).run threesome).sync ⟨120, 0⟩ spoilt).1 =
        { added := 1, removed := 2, failedAdds := 2, skipped := 1 } := by
  have hacts : ∀ act ∈ threesome, act.Distinct := by
    simp [threesome, Act.Distinct, Feed.jobs, Except.toOption, Job.new]
  have hids : (spoilt.map Job.id).Nodup := by simp [spoilt, Job.new, Job.withOption]
  exact ⟨hacts, hids, sync_idempotent ⟨16, [], true, false⟩ 1000 hacts ⟨120, 0⟩ hids,
    by decide +kernel⟩

end Scheduler
end Courier

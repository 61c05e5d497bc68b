import Courier.Proofs.Scheduling.Calls
import Courier.Scheduler.Recorder

/-!
What a pass does, whatever the queue answers.

The namespace `Reconciliation` says it without a queue: from a table, the jobs that have been read
and the answers of the queue it computes the calls, the registrations afterwards and the report.
Registrations without a job that is not newer are `stale`, and jobs without a current registration
are `pending`.  A job is `due` unless it has no expression, or its old registration could not be
removed and is `kept`.

That the scheduler does this is put together from its two halves: the removals (`unregisterAll_eq`)
and the registrations (`registerAll_eq`), each with answers of its own.  In between stand the
registrations that are left (`remaining`) and the ids whose removal was refused (`refused`); that
the second half leaves out just these ids is `tried_refused`.

Main statement: a pass over any table, with jobs of distinct ids, makes just these calls, leaves
just these registrations and gives just this report (`sync_reconciles`).
-/

namespace Courier.Scheduler

open Time

/-- What a queue answers in a pass, by job id.

* `removal`: to the removal of the registration.
* `entry`: to the offer of the job. -/
structure Answers where
  removal : String → Except SchedulerError Unit
  entry : String → Except SchedulerError EntryId

/-! ### Without a queue -/

namespace Reconciliation

variable (t : Registrations) (jobs : List Job) (a : Answers)

/-- Whether the registration of an id is at least as new as a job with this id. -/
def current (id : String) : Bool := jobs.any fun j => j.id = id && t.isCurrent j

/-- The registrations that a pass tries to remove. -/
def stale : Registrations := t.filter fun p => !current t jobs p.1

/-- The jobs without a current registration. -/
def pending : List Job := jobs.filter fun j => !t.isCurrent j

/-- The registration of an id after the removals: it is still there when it is current or the queue
did not let it go. -/
def kept (id : String) : Option Registration :=
  (t.lookup id).filter fun _ => current t jobs id || !(a.removal id).isOk

/-- Whether a job is left out: its old registration is still there, or it has no cron expression. -/
def leftOut (j : Job) : Bool := (kept t jobs a j.id).isSome || Text.blank j.cron

/-- The jobs that are to be registered. -/
def due : List Job := (pending t jobs).filter fun j => !leftOut t jobs a j

/-- The calls of a pass: first all removals, then the offers in the order of the jobs. -/
def calls (now : Instant) : List Call :=
  ((stale t jobs).map fun p => Call.unregister p.2.entry (a.removal p.1)) ++
    (due t jobs a).filterMap fun j => offer now (a.entry j.id) j

/-- The registration of an id after a pass. -/
def registration (id : String) : Option Registration :=
  match kept t jobs a id with
  | some r => some r
  | none => ((due t jobs a).find? fun j => j.id = id).bind fun j => granted (a.entry id) j

/-- The report of a pass. -/
def report : SyncReport where
  added := (due t jobs a).countP fun j => (granted (a.entry j.id) j).isSome
  removed := (stale t jobs).countP fun p => (a.removal p.1).isOk
  failedRemovals := (stale t jobs).countP fun p => !(a.removal p.1).isOk
  failedAdds := (due t jobs a).countP fun j => !(granted (a.entry j.id) j).isSome
  skipped := (pending t jobs).countP (leftOut t jobs a)

variable {t jobs a}

theorem countP_add_countP_not {α : Type} (p : α → Bool) (l : List α) :
    l.countP p + (l.countP fun x => !p x) = l.length := by
  rw [List.length_eq_countP_add_countP p]
  simp only [Bool.not_eq_true, Bool.decide_eq_false]

theorem removed_add_failedRemovals :
    (report t jobs a).removed + (report t jobs a).failedRemovals = (stale t jobs).length :=
  countP_add_countP_not (fun p : String × Registration => (a.removal p.1).isOk) (stale t jobs)

theorem added_add_failedAdds_add_skipped :
    (report t jobs a).added + (report t jobs a).failedAdds + (report t jobs a).skipped =
      (pending t jobs).length := by
  have hdue : (report t jobs a).added + (report t jobs a).failedAdds = (due t jobs a).length :=
    countP_add_countP_not (fun j : Job => (granted (a.entry j.id) j).isSome) (due t jobs a)
  have hlength : (due t jobs a).length = (pending t jobs).countP fun j => !leftOut t jobs a j :=
    List.countP_eq_length_filter.symm
  have hskipped : (report t jobs a).skipped = (pending t jobs).countP (leftOut t jobs a) := rfl
  rw [hdue, hlength, hskipped, Nat.add_comm]
  exact countP_add_countP_not (leftOut t jobs a) (pending t jobs)

/-- No other job has the id of a job without a current registration. -/
theorem current_of_mem_pending (hjobs : (jobs.map Job.id).Nodup) {j : Job}
    (hj : j ∈ pending t jobs) : current t jobs j.id = false := by
  obtain ⟨hmem, hnot⟩ := List.mem_filter.mp hj
  refine List.any_eq_false.mpr fun i hi => ?_
  by_cases hij : i.id = j.id
  · obtain rfl : i = j := List.inj_on_of_nodup_map hjobs hi hmem hij
    simpa using hnot
  · simp [hij]

theorem mem_stale {id : String} :
    id ∈ (stale t jobs).map Prod.fst ↔ (t.lookup id).isSome ∧ current t jobs id = false := by
  rw [mem_keys_iff_isSome, stale, lookup_filter_key fun id => !current t jobs id]
  cases current t jobs id <;> simp

/-! ### What is kept and what is due -/

theorem exists_of_current {id : String} {r : Registration} (hr : t.lookup id = some r)
    (h : current t jobs id = true) : ∃ j ∈ jobs, j.id = id ∧ j.updatedAt ≤ r.updatedAt := by
  obtain ⟨j, hj, hcond⟩ := List.any_eq_true.mp h
  obtain ⟨rfl, hnew⟩ : j.id = id ∧ t.isCurrent j = true := by simpa using hcond
  rw [Registrations.isCurrent, hr] at hnew
  exact ⟨j, hj, rfl, of_decide_eq_true hnew⟩

/-- A current registration is kept. -/
theorem kept_of_isCurrent {j : Job} (hj : j ∈ jobs) (h : t.isCurrent j = true) :
    kept t jobs a j.id = t.lookup j.id := by
  have hcurrent : current t jobs j.id = true := List.any_eq_true.mpr ⟨j, hj, by simp [h]⟩
  rw [kept, hcurrent]
  rcases t.lookup j.id with - | r <;> rfl

/-- When no removal is refused, only current registrations are kept. -/
theorem current_of_kept (hremoval : ∀ p ∈ stale t jobs, (a.removal p.1).isOk) {id : String}
    {r : Registration} (hr : kept t jobs a id = some r) :
    t.lookup id = some r ∧ current t jobs id = true := by
  obtain ⟨hlookup, hstays⟩ := Option.filter_eq_some_iff.mp hr
  refine ⟨hlookup, ?_⟩
  by_contra hnot
  have hstale : (id, r) ∈ stale t jobs :=
    List.mem_filter.mpr ⟨mem_of_lookup hlookup, by simpa using hnot⟩
  simp [hnot, hremoval _ hstale] at hstays

/-- When no removal is refused, a job without a current registration has none left. -/
theorem kept_of_mem_pending (hremoval : ∀ p ∈ stale t jobs, (a.removal p.1).isOk)
    (hjobs : (jobs.map Job.id).Nodup) {j : Job} (hj : j ∈ pending t jobs) :
    kept t jobs a j.id = none := by
  by_contra hne
  obtain ⟨r, hr⟩ := Option.ne_none_iff_exists'.mp hne
  have hcurrent := (current_of_kept hremoval hr).2
  rw [current_of_mem_pending hjobs hj] at hcurrent
  cases hcurrent

/-- When no removal is refused, a job is due unless it has no cron expression. -/
theorem leftOut_of_mem_pending (hremoval : ∀ p ∈ stale t jobs, (a.removal p.1).isOk)
    (hjobs : (jobs.map Job.id).Nodup) {j : Job} (hj : j ∈ pending t jobs) :
    leftOut t jobs a j = Text.blank j.cron := by
  rw [leftOut, kept_of_mem_pending hremoval hjobs hj]
  rfl

theorem due_eq (hremoval : ∀ p ∈ stale t jobs, (a.removal p.1).isOk)
    (hjobs : (jobs.map Job.id).Nodup) :
    due t jobs a = (pending t jobs).filter fun j => !Text.blank j.cron :=
  List.filter_congr fun j hj => by rw [leftOut_of_mem_pending hremoval hjobs hj]

theorem due_sublist : (due t jobs a).Sublist jobs :=
  List.filter_sublist.trans List.filter_sublist

/-- A job is due when it has a cron expression and its old registration is gone. -/
theorem mem_due {j : Job} (hj : j ∈ jobs) (hkept : kept t jobs a j.id = none)
    (hcron : Text.blank j.cron = false) : j ∈ due t jobs a := by
  have hpending : j ∈ pending t jobs := by
    refine List.mem_filter.mpr ⟨hj, ?_⟩
    by_contra hnot
    -- a current registration would have been kept
    have hcurrent : t.isCurrent j = true := by simpa using hnot
    rw [kept_of_isCurrent hj hcurrent] at hkept
    rw [Registrations.isCurrent, hkept] at hcurrent
    cases hcurrent
  exact List.mem_filter.mpr ⟨hpending, by simp [leftOut, hkept, hcron]⟩

/-! ### Between the removals and the offers -/

variable (t jobs) in
/-- The ids whose removal is refused. -/
def refused (removal : String → Except SchedulerError Unit) : List String :=
  ((stale t jobs).map Prod.fst).filter fun id => !(removal id).isOk

variable (t jobs) in
/-- The table after the removals. -/
def remaining (removal : String → Except SchedulerError Unit) : Registrations :=
  t.filter fun p => !(((stale t jobs).map Prod.fst).contains p.1 && (removal p.1).isOk)

theorem length_refused : (refused t jobs a.removal).length = (report t jobs a).failedRemovals := by
  rw [refused, ← List.countP_eq_length_filter, List.countP_map]
  rfl

theorem lookup_remaining (id : String) :
    (remaining t jobs a.removal).lookup id = kept t jobs a id := by
  have hcontains : ((stale t jobs).map Prod.fst).contains id =
      ((t.lookup id).isSome && !current t jobs id) := by
    rw [Bool.eq_iff_iff, List.contains_iff_mem, mem_stale]
    simp
  rw [remaining, lookup_filter_key fun id => !(((stale t jobs).map Prod.fst).contains id &&
    (a.removal id).isOk), hcontains, kept]
  rcases t.lookup id with - | r
  · simp
  · cases current t jobs id <;> simp [Option.filter]

/-- A job without a current registration is left out with its old one if that could not be
removed. -/
theorem leavesOut_refused (hjobs : (jobs.map Job.id).Nodup) {j : Job} (hj : j ∈ pending t jobs) :
    leavesOut (refused t jobs a.removal) j = leftOut t jobs a j := by
  have hcurrent := current_of_mem_pending hjobs hj
  have hrefused : (refused t jobs a.removal).contains j.id = (kept t jobs a j.id).isSome := by
    rw [Bool.eq_iff_iff, List.contains_iff_mem, refused, List.mem_filter, mem_stale, kept, hcurrent]
    rcases t.lookup j.id with - | r
    · simp
    · simp [Option.filter]
  rw [leavesOut, leftOut, hrefused]

theorem tried_refused (hjobs : (jobs.map Job.id).Nodup) :
    tried (refused t jobs a.removal) (pending t jobs) = due t jobs a := by
  refine List.filter_congr fun j hj => ?_
  rw [leavesOut_refused hjobs hj]

/-- What is kept is not to be registered anew. -/
theorem or_kept (id : String) :
    (((due t jobs a).find? fun j => j.id = id).bind fun j => granted (a.entry id) j).or
      (kept t jobs a id) = registration t jobs a id := by
  rw [registration]
  rcases hkept : kept t jobs a id with - | r
  · simp
  · -- a job whose registration is kept is not due, and no other job has its id
    have hnone : ((due t jobs a).find? fun j => j.id = id) = none := by
      refine List.find?_eq_none.mpr fun j hj => ?_
      obtain ⟨-, hleft⟩ := List.mem_filter.mp hj
      intro hid
      obtain rfl : j.id = id := by simpa using hid
      simp [leftOut, hkept] at hleft
    rw [hnone]
    rfl

end Reconciliation

variable {κ : Type} [TaskQueue κ]

open Reconciliation

/-- Which registrations a pass removes. -/
theorem sync_eq (s : Scheduler κ) (now : Instant) (jobs : List Job) :
    s.sync now jobs =
      let (failed, s') := s.unregisterAll ((stale s.table jobs).map Prod.fst)
      registerAll now failed s' (pending s.table jobs)
        { removed := (stale s.table jobs).length - failed.length
          failedRemovals := failed.length } := by
  have hstale : ((s.table.map Prod.fst).filter fun id =>
      !(jobs.filter (Registrations.isCurrent s.table)).any fun j => j.id = id) =
        (stale s.table jobs).map Prod.fst := by
    rw [stale, List.filter_map]
    congr 1
    refine List.filter_congr fun p _ => ?_
    simp only [Function.comp, List.any_filter, current, Bool.and_comm]
  unfold sync
  simp only [hstale, List.length_map]
  rfl

/-- A pass with a record of its calls: for some answers of the queue, report, calls and registrations
are those that follow from the answers. -/
theorem sync_traced_eq (s : Scheduler κ) (hs : Keyed s.table) (now : Instant) {jobs : List Job}
    (hjobs : (jobs.map Job.id).Nodup) :
    ∃ (a : Answers) (queue : κ) (table : Registrations),
      s.traced.sync now jobs =
        (report s.table jobs a, ⟨table, ⟨queue, calls s.table jobs a now⟩⟩) ∧
      Keyed table ∧ ∀ id, table.lookup id = registration s.table jobs a id := by
  have hstale : Keyed (stale s.table jobs) := hs.filter _
  have hmem : ∀ p ∈ stale s.table jobs, s.traced.table.lookup p.1 = some p.2 :=
    fun p hp => hs.lookup_of_mem (List.mem_filter.mp hp).1
  have hpending : ((pending s.table jobs).map Job.id).Nodup :=
    hjobs.sublist (List.filter_sublist.map _)
  -- each half has answers of its own, to the removals and to the offers
  obtain ⟨removal, q₁, hremoved⟩ := unregisterAll_eq s.traced hstale hmem
  obtain ⟨entry, queue, table, hadded, hkeyed, hlookup⟩ := registerAll_eq now
    (refused s.table jobs removal)
    ⟨remaining s.table jobs removal, ⟨q₁, s.traced.queue.calls ++
      (stale s.table jobs).map fun p => .unregister p.2.entry (removal p.1)⟩⟩
    hpending
    { removed := (stale s.table jobs).length - (refused s.table jobs removal).length
      failedRemovals := (refused s.table jobs removal).length }
  obtain ⟨a, rfl, rfl⟩ : ∃ a : Answers, a.removal = removal ∧ a.entry = entry :=
    ⟨⟨removal, entry⟩, rfl, rfl⟩
  rw [tried_refused hjobs] at hadded hlookup
  have hskipped : (pending s.table jobs).countP (leavesOut (refused s.table jobs a.removal)) =
      (report s.table jobs a).skipped :=
    List.countP_congr fun j hj => by rw [leavesOut_refused hjobs hj]
  have hremovals : (stale s.table jobs).length - (report s.table jobs a).failedRemovals =
      (report s.table jobs a).removed := by
    rw [← removed_add_failedRemovals (a := a), Nat.add_sub_cancel]
  refine ⟨a, queue, table, ?_, hkeyed (hs.filter _), ?_⟩
  · rw [sync_eq, table_traced, hremoved]
    refine hadded.trans ?_
    rw [hskipped, length_refused, hremovals]
    simp only [Nat.zero_add]
    rfl
  · intro id
    rw [hlookup id, lookup_remaining, or_kept]

/-- What a pass does when the queue gives some answers: to the registrations, to the queue and to
its report.

* `keyed`: no id is registered twice.
* `traced`: the record is that of the pass, and it says what is called and answered, in order. -/
structure Reconciles (s : Scheduler κ) (now : Instant) (jobs : List Job) (a : Answers) : Prop where
  registrations : ∀ id, (s.sync now jobs).2.table.lookup id = registration s.table jobs a id
  keyed : Keyed (s.sync now jobs).2.table
  traced : s.sync now jobs = ((s.traced.sync now jobs).1, (s.traced.sync now jobs).2.bare)
  calls : (s.traced.sync now jobs).2.queue.calls = calls s.table jobs a now
  report : (s.sync now jobs).1 = report s.table jobs a
  removals : (s.sync now jobs).1.removed + (s.sync now jobs).1.failedRemovals =
    (stale s.table jobs).length
  additions : (s.sync now jobs).1.added + (s.sync now jobs).1.failedAdds +
    (s.sync now jobs).1.skipped = (pending s.table jobs).length

/-- A pass over any table, with jobs of distinct ids, is the reconciliation that follows from the
answers of the queue, whatever these are. -/
theorem sync_reconciles (s : Scheduler κ) (hs : Keyed s.table) (now : Instant) {jobs : List Job}
    (hjobs : (jobs.map Job.id).Nodup) : ∃ a : Answers, Reconciles s now jobs a := by
  obtain ⟨a, queue, table, htraced, hkeyed, hlookup⟩ := sync_traced_eq s hs now hjobs
  have hsync : s.sync now jobs = (report s.table jobs a, ⟨table, queue⟩) := by
    have hbare := sync_bare s.traced now jobs
    rw [htraced] at hbare
    exact hbare
  refine ⟨a, ?_⟩
  constructor
  case registrations =>
    intro id
    rw [hsync]
    exact hlookup id
  case keyed =>
    rw [hsync]
    exact hkeyed
  case traced => exact sync_bare s.traced now jobs
  case calls => rw [htraced]
  case report => rw [hsync]
  case removals =>
    rw [hsync]
    exact removed_add_failedRemovals
  case additions =>
    rw [hsync]
    exact added_add_failedAdds_add_skipped

/-- A job is edited and another one is deleted, but the queue keeps the entry of the latter. -/
def refusal : Scheduler Recorder :=
  ⟨[("a", ⟨0, ⟨0, 0⟩⟩), ("b", ⟨1, ⟨0, 0⟩⟩)],
    { fresh := 2, live := [0, 1], refusedEntries := ["entry-1"] }⟩

theorem sync_reconciles_refusal :
    Keyed refusal.table ∧ ([Job.new "a" "mail" "0 0 * * *" ⟨60, 0⟩].map Job.id).Nodup ∧
      (∃ a : Answers, Reconciles refusal ⟨120, 0⟩ [Job.new "a" "mail" "0 0 * * *" ⟨60, 0⟩] a) ∧
      (refusal.sync ⟨120, 0⟩ [Job.new "a" "mail" "0 0 * * *" ⟨60, 0⟩]).1 =
        { added := 1, removed := 1, failedRemovals := 1 } := by
  have hkeyed : Keyed refusal.table := by simp [refusal, Keyed]
  have hids : ([Job.new "a" "mail" "0 0 * * *" ⟨60, 0⟩].map Job.id).Nodup := by simp
  exact ⟨hkeyed, hids, sync_reconciles refusal hkeyed ⟨120, 0⟩ hids, by decide +kernel⟩

end Courier.Scheduler

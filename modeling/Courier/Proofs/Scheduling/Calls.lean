import Courier.Proofs.Keyed
import Courier.Scheduler.Basic

/-!
The calls that the scheduler makes.

A `Traced` queue is any queue with a record of the calls that were made to it and of its answers.
The scheduler does not see the record: with it or without it, it does the same (`sync_bare`,
`add_bare`, `remove_bare`).  So whatever the record of a scheduler with a traced queue says is what
the scheduler does to the queue alone.

The second half says what the two halves of a pass do, in terms of the answers: `unregisterAll_eq`
for the removals and `registerAll_eq` for the registrations.  The answers are taken as functions of
the id, which exist because a pass makes at most one call for an id.  In each induction the answer
to the first call is put before those that the rest is given, and it has to be shown that the rest
does not ask for its id.  Nothing is assumed of the queue: it may answer two equal calls in
different ways.
-/

namespace Courier

/-! ### Tables of registrations -/

namespace Registrations

theorem lookup_insert (id : String) (r : Registration) (t : Registrations) (id' : String) :
    (insert id r t).lookup id' = if id' = id then some r else t.lookup id' := by
  induction t with
  | nil =>
    by_cases h : id' = id
    · simp [insert, h]
    · have hne : (id' == id) = false := by simpa using h
      simp [insert, h, List.lookup_cons, hne]
  | cons p t ih =>
    obtain ⟨k, v⟩ := p
    -- the registration is replaced where it is, or the key comes further on
    by_cases hk : k = id
    · subst hk
      by_cases h : id' = k
      · simp [insert, h]
      · have hne : (id' == k) = false := by simpa using h
        simp [insert, h, List.lookup_cons, hne]
    · simp only [insert, hk, if_false, List.lookup_cons, ih]
      by_cases h : id' = k
      · subst h
        simp [hk]
      · have hne : (id' == k) = false := by simpa using h
        simp [hne]

theorem lookup_erase (id : String) (t : Registrations) (id' : String) :
    (erase id t).lookup id' = if id' = id then none else t.lookup id' := by
  have hlookup := lookup_filter_key (fun k => decide (k ≠ id)) t id'
  by_cases h : id' = id <;> simpa [erase, h] using hlookup

theorem mem_keys_insert {id k : String} {r : Registration} {t : Registrations}
    (h : k ∈ (insert id r t).map Prod.fst) : k = id ∨ k ∈ t.map Prod.fst := by
  by_contra hk
  obtain ⟨hne, hmem⟩ := not_or.mp hk
  have hnone := lookup_eq_none_iff_not_mem_keys.mpr hmem
  have hlookup := lookup_insert id r t k
  rw [if_neg hne, hnone] at hlookup
  exact lookup_eq_none_iff_not_mem_keys.mp hlookup h

theorem keyed_insert {t : Registrations} (h : Keyed t) (id : String) (r : Registration) :
    Keyed (insert id r t) := by
  induction t with
  | nil => exact List.nodup_singleton id
  | cons p t ih =>
    obtain ⟨k, v⟩ := p
    obtain ⟨hk, ht⟩ := keyed_cons.mp h
    by_cases hid : k = id
    · subst hid
      simpa [insert] using keyed_cons.mpr ⟨hk, ht⟩
    · have hnot : k ∉ (insert id r t).map Prod.fst := by
        intro hmem
        rcases mem_keys_insert hmem with hkid | hkt
        · exact hid hkid
        · exact hk hkt
      simpa [insert, hid] using keyed_cons.mpr ⟨hnot, ih ht⟩

theorem insert_of_lookup_eq_none {id : String} {t : Registrations} (h : t.lookup id = none)
    (r : Registration) : insert id r t = t ++ [(id, r)] := by
  induction t with
  | nil => rfl
  | cons p t ih =>
    have hne : id ≠ p.1 ∧ t.lookup id = none := by
      rw [List.lookup_cons] at h
      split at h
      · cases h
      · rename_i hne
        exact ⟨by simpa using hne, h⟩
    simp [insert, hne.1.symm, ih hne.2]

theorem erase_of_lookup_eq_none {id : String} {t : Registrations} (h : t.lookup id = none) :
    erase id t = t := by
  refine List.filter_eq_self.mpr fun p hp => ?_
  have hne : p.1 ≠ id := fun hid =>
    lookup_eq_none_iff_not_mem_keys.mp h (hid ▸ List.mem_map_of_mem hp)
  simpa using hne

end Registrations

namespace Scheduler

open Time

variable {κ : Type}

/-! ### Traced queues -/

/-- A call to a task queue with its answer. -/
inductive Call
  | register (now : Instant) (expr : String) (task : Task) (options : List TaskOption)
      (answer : Except SchedulerError EntryId)
  | unregister (entry : EntryId) (answer : Except SchedulerError Unit)

/-- A task queue with a record of the calls made to it, oldest first. -/
structure Traced (κ : Type) where
  queue : κ
  calls : List Call := []

instance [TaskQueue κ] : TaskQueue (Traced κ) where
  settle m t := { t with queue := Timed.settle m t.queue }
  next? t := Timed.next? t.queue
  register t now expr task options :=
    let (answer, queue) := TaskQueue.register t.queue now expr task options
    (answer, ⟨queue, t.calls ++ [.register now expr task options answer]⟩)
  unregister t entry :=
    let (answer, queue) := TaskQueue.unregister t.queue entry
    (answer, ⟨queue, t.calls ++ [.unregister entry answer]⟩)
  start t now :=
    let (answer, queue) := TaskQueue.start t.queue now
    (answer, { t with queue })
  stop t := { t with queue := TaskQueue.stop t.queue }

/-- The scheduler with an empty record. -/
def traced (s : Scheduler κ) : Scheduler (Traced κ) := ⟨s.table, ⟨s.queue, []⟩⟩

/-- The scheduler without the record. -/
def bare (s : Scheduler (Traced κ)) : Scheduler κ := ⟨s.table, s.queue.queue⟩

@[simp] theorem table_traced (s : Scheduler κ) : s.traced.table = s.table := rfl

@[simp] theorem calls_traced (s : Scheduler κ) : s.traced.queue.calls = [] := rfl

variable [TaskQueue κ]

theorem Traced.register_eq (t : Traced κ) (now : Instant) (expr : String) (task : Task)
    (options : List TaskOption) :
    TaskQueue.register t now expr task options =
      ((TaskQueue.register t.queue now expr task options).1,
        ⟨(TaskQueue.register t.queue now expr task options).2, t.calls ++
          [.register now expr task options
            (TaskQueue.register t.queue now expr task options).1]⟩) := rfl

theorem Traced.unregister_eq (t : Traced κ) (entry : EntryId) :
    TaskQueue.unregister t entry =
      ((TaskQueue.unregister t.queue entry).1,
        ⟨(TaskQueue.unregister t.queue entry).2,
          t.calls ++ [.unregister entry (TaskQueue.unregister t.queue entry).1]⟩) := rfl

theorem unregister_bare (s : Scheduler (Traced κ)) (id : String) :
    s.bare.unregister id = ((s.unregister id).1, (s.unregister id).2.bare) := by
  have htable : s.bare.table = s.table := rfl
  unfold unregister
  rw [htable]
  rcases s.table.lookup id with - | r
  · rfl
  · have hqueue : s.bare.queue = s.queue.queue := rfl
    simp only [Traced.unregister_eq, hqueue]
    rcases TaskQueue.unregister s.queue.queue r.entry with ⟨e | -, q⟩ <;> rfl

theorem register_bare (s : Scheduler (Traced κ)) (now : Instant) (j : Job) :
    s.bare.register now j = ((s.register now j).1, (s.register now j).2.bare) := by
  unfold register
  rcases TaskOption.ofJobOptions j.options with ⟨kind, fault⟩ | options
  · rfl
  · have hqueue : s.bare.queue = s.queue.queue := rfl
    simp only [Traced.register_eq, hqueue]
    rcases TaskQueue.register s.queue.queue now j.cron (Task.ofJob j) options with ⟨e | entry, q⟩ <;>
      rfl

theorem remove_bare (s : Scheduler (Traced κ)) (id : String) :
    s.bare.remove id = ((s.remove id).1, (s.remove id).2.bare) := by
  unfold remove
  rw [unregister_bare]
  rcases s.unregister id with ⟨e | -, s'⟩ <;> rfl

theorem add_bare (s : Scheduler (Traced κ)) (now : Instant) (j : Job) :
    s.bare.add now j = ((s.add now j).1, (s.add now j).2.bare) := by
  unfold add
  rw [remove_bare]
  rcases s.remove j.id with ⟨e | -, s'⟩
  · rfl
  · by_cases hj : j.schedulable = true
    · simp only [hj, if_true, register_bare]
      rcases s'.register now j with ⟨e | -, s''⟩ <;> rfl
    · simp only [hj]
      rfl

theorem unregisterAll_bare (s : Scheduler (Traced κ)) (ids : List String) :
    s.bare.unregisterAll ids = ((s.unregisterAll ids).1, (s.unregisterAll ids).2.bare) := by
  induction ids generalizing s with
  | nil => rfl
  | cons id ids ih =>
    unfold unregisterAll
    rw [unregister_bare]
    rcases s.unregister id with ⟨e | -, s'⟩
    · simp only [ih]
    · exact ih s'

theorem registerAll_bare (now : Instant) (failed : List String) (s : Scheduler (Traced κ))
    (jobs : List Job) (report : SyncReport) :
    registerAll now failed s.bare jobs report =
      ((registerAll now failed s jobs report).1, (registerAll now failed s jobs report).2.bare) := by
  induction jobs generalizing s report with
  | nil => rfl
  | cons j jobs ih =>
    unfold registerAll
    rw [register_bare]
    split
    · exact ih s _
    · rcases s.register now j with ⟨e | -, s'⟩
      · exact ih s' _
      · exact ih s' _

/-- The scheduler does not see the record. -/
theorem sync_bare (s : Scheduler (Traced κ)) (now : Instant) (jobs : List Job) :
    s.bare.sync now jobs = ((s.sync now jobs).1, (s.sync now jobs).2.bare) := by
  have htable : s.bare.table = s.table := rfl
  unfold sync
  simp only [htable, unregisterAll_bare, registerAll_bare]

/-! ### What a pass does -/

/-- A job without a registration is left alone. -/
theorem unregister_of_none {s : Scheduler κ} {id : String} (h : s.table.lookup id = none) :
    s.unregister id = (.ok (), s) := by
  unfold unregister
  rw [h]

/-- One call, and the registration goes if the queue lets it go. -/
theorem unregister_eq {s : Scheduler (Traced κ)} {id : String} {r : Registration}
    (h : s.table.lookup id = some r) :
    ∃ (answer : Except SchedulerError Unit) (queue : κ), s.unregister id =
      (answer, ⟨s.table.filter fun p => !(decide (p.1 = id) && answer.isOk),
        ⟨queue, s.queue.calls ++ [.unregister r.entry answer]⟩⟩) := by
  unfold unregister
  rw [h]
  simp only [Traced.unregister_eq]
  rcases TaskQueue.unregister s.queue.queue r.entry with ⟨answer, q⟩
  refine ⟨answer, q, ?_⟩
  -- an error leaves the table as it is
  rcases answer with e | -
  · simp [Except.isOk, Except.toBool]
  · simp [Except.isOk, Except.toBool, Registrations.erase]

/-- The removals of a pass: one call for each registration, in order; those that the queue lets go
are gone, and the others are reported. -/
theorem unregisterAll_eq (s : Scheduler (Traced κ)) {stale : Registrations} (hstale : Keyed stale)
    (hmem : ∀ p ∈ stale, s.table.lookup p.1 = some p.2) :
    ∃ (answer : String → Except SchedulerError Unit) (queue : κ),
      s.unregisterAll (stale.map Prod.fst) =
        ((stale.map Prod.fst).filter fun id => !(answer id).isOk,
          ⟨s.table.filter fun p => !((stale.map Prod.fst).contains p.1 && (answer p.1).isOk),
            ⟨queue, s.queue.calls ++
              stale.map fun p => .unregister p.2.entry (answer p.1)⟩⟩) := by
  -- the answers are the one to the first call and, at all other ids, those to the rest
  induction stale generalizing s with
  | nil => exact ⟨fun _ => .ok (), s.queue.queue, by simp [unregisterAll]⟩
  | cons p stale ih =>
    obtain ⟨id, r⟩ := p
    obtain ⟨hid, hrest⟩ := keyed_cons.mp hstale
    have hne : ∀ p ∈ stale, p.1 ≠ id := fun p hp hpid => hid (hpid ▸ List.mem_map_of_mem hp)
    obtain ⟨a, q, hunregister⟩ := unregister_eq (hmem (id, r) List.mem_cons_self)
    generalize hs' : (⟨s.table.filter fun p => !(decide (p.1 = id) && a.isOk),
      ⟨q, s.queue.calls ++ [.unregister r.entry a]⟩⟩ : Scheduler (Traced κ)) = s' at hunregister
    -- the other registrations are still there
    have hmem' : ∀ p ∈ stale, s'.table.lookup p.1 = some p.2 := by
      intro p hp
      rw [← hs', lookup_filter_key fun k => !(decide (k = id) && a.isOk)]
      simpa [hne p hp] using hmem p (List.mem_cons_of_mem _ hp)
    obtain ⟨answer, q', hall⟩ := ih s' hrest hmem'
    refine ⟨fun k => if k = id then a else answer k, q', ?_⟩
    have hanswer : ∀ p ∈ stale, (if p.1 = id then a else answer p.1) = answer p.1 :=
      fun p hp => if_neg (hne p hp)
    have hcalls : (stale.map fun p => Call.unregister p.2.entry (answer p.1)) =
        stale.map fun p => Call.unregister p.2.entry (if p.1 = id then a else answer p.1) :=
      List.map_congr_left fun p hp => by rw [hanswer p hp]
    have hfailed : ((stale.map Prod.fst).filter fun k => !(answer k).isOk) =
        (stale.map Prod.fst).filter fun k => !(if k = id then a else answer k).isOk := by
      refine List.filter_congr fun k hk => ?_
      obtain ⟨p, hp, rfl⟩ := List.mem_map.mp hk
      rw [hanswer p hp]
    -- the registration goes in this step or in none
    have htable : s'.table.filter
          (fun p => !((stale.map Prod.fst).contains p.1 && (answer p.1).isOk)) =
        s.table.filter fun p => !((id :: stale.map Prod.fst).contains p.1 &&
          (if p.1 = id then a else answer p.1).isOk) := by
      rw [← hs', List.filter_filter]
      refine List.filter_congr fun p _ => ?_
      by_cases hp : p.1 = id
      · have hnot : (stale.map Prod.fst).contains p.1 = false := by simpa [hp] using hid
        rw [hnot, hp]
        simp
      · have hpid : (p.1 == id) = false := by simpa using hp
        simp [hp, hpid]
    have hcalls' : s'.queue.calls = s.queue.calls ++ [.unregister r.entry a] := by rw [← hs']
    rw [htable, hfailed, hcalls, hcalls'] at hall
    rw [List.map_cons, unregisterAll, hunregister]
    rcases a with e | ⟨⟩
    · show (let (failed, s) := s'.unregisterAll _; (id :: failed, s)) = _
      rw [hall]
      simp [Except.isOk, Except.toBool]
    · show s'.unregisterAll _ = _
      rw [hall]
      simp [Except.isOk, Except.toBool]

/-- The call with which a job is offered to the queue, given the answer; a job whose options do not
translate is not offered. -/
def offer (now : Instant) (answer : Except SchedulerError EntryId) (j : Job) : Option Call :=
  match TaskOption.ofJobOptions j.options with
  | .ok options => some (.register now j.cron (Task.ofJob j) options answer)
  | .error _ => none

/-- The registration that a job gets, given the answer to its offer. -/
def granted (answer : Except SchedulerError EntryId) (j : Job) : Option Registration :=
  match TaskOption.ofJobOptions j.options, answer with
  | .ok _, .ok entry => some ⟨entry, j.updatedAt⟩
  | _, _ => none

theorem updatedAt_of_granted {answer : Except SchedulerError EntryId} {j : Job} {r : Registration}
    (h : granted answer j = some r) : r.updatedAt = j.updatedAt := by
  unfold granted at h
  split at h
  · obtain rfl := Option.some.inj h
    rfl
  · cases h

/-- Whether a pass leaves a job out, given the ids with a registration that is still there. -/
def leavesOut (held : List String) (j : Job) : Bool := held.contains j.id || Text.blank j.cron

/-- The jobs that a pass tries to register. -/
def tried (held : List String) (jobs : List Job) : List Job :=
  jobs.filter fun j => !leavesOut held j

/-- A job is offered at most once, and has what it is granted. -/
theorem register_eq (s : Scheduler (Traced κ)) (now : Instant) (j : Job) :
    ∃ (answer : Except SchedulerError EntryId) (queue : κ),
      (s.register now j).1.isOk = (granted answer j).isSome ∧
      (s.register now j).2 =
        ⟨match granted answer j with
          | some r => Registrations.insert j.id r s.table
          | none => s.table,
        ⟨queue, s.queue.calls ++ (offer now answer j).toList⟩⟩ := by
  unfold register offer granted
  rcases TaskOption.ofJobOptions j.options with ⟨kind, fault⟩ | options
  · exact ⟨.error (.invalidOption kind fault), s.queue.queue, rfl, by simp⟩
  · simp only [Traced.register_eq]
    rcases TaskQueue.register s.queue.queue now j.cron (Task.ofJob j) options with ⟨answer, q⟩
    refine ⟨answer, q, ?_⟩
    rcases answer with e | entry
    · exact ⟨rfl, rfl⟩
    · exact ⟨rfl, rfl⟩

theorem registerAll_cons_of_leavesOut {now : Instant} {failed : List String} {s : Scheduler κ}
    {j : Job} (h : leavesOut failed j = true) (jobs : List Job) (report : SyncReport) :
    registerAll now failed s (j :: jobs) report =
      registerAll now failed s jobs { report with skipped := report.skipped + 1 } := by
  rw [registerAll, if_pos (by simpa [leavesOut] using h)]

theorem registerAll_cons_of_tries {now : Instant} {failed : List String} {s : Scheduler κ} {j : Job}
    (h : ¬ leavesOut failed j = true) (jobs : List Job) (report : SyncReport) :
    registerAll now failed s (j :: jobs) report =
      registerAll now failed (s.register now j).2 jobs
        { report with
          added := report.added + (s.register now j).1.isOk.toNat
          failedAdds := report.failedAdds + (!(s.register now j).1.isOk).toNat } := by
  rw [registerAll, if_neg (by simpa [leavesOut] using h)]
  rcases s.register now j with ⟨e | -, s'⟩ <;> rfl

/-- The registrations of a pass: the jobs that are tried are offered in order, and have what they
are granted; nothing else changes. -/
theorem registerAll_eq (now : Instant) (failed : List String) (s : Scheduler (Traced κ))
    {jobs : List Job} (hjobs : (jobs.map Job.id).Nodup) (report : SyncReport) :
    ∃ (answer : String → Except SchedulerError EntryId) (queue : κ) (table : Registrations),
      registerAll now failed s jobs report =
        ({ report with
            added := report.added +
              (tried failed jobs).countP fun j => (granted (answer j.id) j).isSome
            failedAdds := report.failedAdds +
              (tried failed jobs).countP fun j => !(granted (answer j.id) j).isSome
            skipped := report.skipped + jobs.countP (leavesOut failed) },
          ⟨table, ⟨queue, s.queue.calls ++
            (tried failed jobs).filterMap fun j => offer now (answer j.id) j⟩⟩) ∧
      (Keyed s.table → Keyed table) ∧
      ∀ id, table.lookup id =
        (((tried failed jobs).find? fun j => j.id = id).bind fun j => granted (answer id) j).or
          (s.table.lookup id) := by
  induction jobs generalizing s report with
  | nil => exact ⟨fun _ => .error (.runtime ""), s.queue.queue, s.table,
      by simp [registerAll, tried], fun h => h, fun id => by simp [tried]⟩
  | cons j jobs ih =>
    obtain ⟨hj, hrest⟩ := List.nodup_cons.mp hjobs
    -- a job that is left out makes no call
    by_cases hskip : leavesOut failed j = true
    · obtain ⟨answer, queue, table, hall, hkeyed, hlookup⟩ :=
        ih s hrest { report with skipped := report.skipped + 1 }
      have htried : tried failed (j :: jobs) = tried failed jobs := by simp [tried, hskip]
      refine ⟨answer, queue, table, ?_, hkeyed, ?_⟩
      · rw [registerAll_cons_of_leavesOut hskip, hall, htried, List.countP_cons_of_pos hskip]
        simp only [Nat.add_assoc, Nat.add_comm 1]
      · intro id
        rw [hlookup, htried]
    · obtain ⟨a, q, hok, hs'⟩ := register_eq s now j
      have htried : tried failed (j :: jobs) = j :: tried failed jobs := by simp [tried, hskip]
      rw [registerAll_cons_of_tries hskip, htried, List.countP_cons_of_neg hskip, hok]
      generalize (s.register now j).2 = s' at hs'
      obtain ⟨answer, queue, table, hall, hkeyed, hlookup⟩ := ih s' hrest
        { report with
          added := report.added + (granted a j).isSome.toNat
          failedAdds := report.failedAdds + (!(granted a j).isSome).toNat }
      -- the answer to the first offer is not one to another
      have hne : ∀ i ∈ tried failed jobs, i.id ≠ j.id := by
        intro i hi hij
        exact hj (hij ▸ List.mem_map_of_mem (List.mem_filter.mp hi).1)
      have hanswer : ∀ i ∈ tried failed jobs, (if i.id = j.id then a else answer i.id) =
          answer i.id := fun i hi => if_neg (hne i hi)
      have hcount : ∀ p : Option Registration → Bool,
          ((tried failed jobs).countP fun i => p (granted (answer i.id) i)) =
            (tried failed jobs).countP fun i =>
              p (granted (if i.id = j.id then a else answer i.id) i) := by
        intro p
        refine List.countP_congr fun i hi => ?_
        rw [hanswer i hi]
      have hoffers : ((tried failed jobs).filterMap fun i => offer now (answer i.id) i) =
          (tried failed jobs).filterMap fun i =>
            offer now (if i.id = j.id then a else answer i.id) i := by
        refine List.filterMap_congr fun i hi => ?_
        rw [hanswer i hi]
      refine ⟨fun k => if k = j.id then a else answer k, queue, table, ?_, ?_, ?_⟩
      · rw [hall, hs', hcount Option.isSome, hcount fun r => !r.isSome, hoffers]
        simp only [List.countP_cons, List.filterMap_cons, if_true]
        rcases granted a j with - | r <;> rcases offer now a j with - | c <;>
          simp [Nat.add_assoc, Nat.add_comm 1]
      · intro h
        refine hkeyed ?_
        rw [hs']
        rcases granted a j with - | r
        · exact h
        · exact Registrations.keyed_insert h j.id r
      · intro id
        rw [hlookup, hs', List.find?_cons]
        by_cases hid : id = j.id
        · -- no other job of the pass has this id
          have hnone : ((tried failed jobs).find? fun i => i.id = j.id) = none :=
            List.find?_eq_none.mpr fun i hi => by simpa using hne i hi
          subst hid
          -- the job has what it is granted, and nothing if that is nothing
          rcases hg : granted a j with - | r
          · simp [hnone, hg]
          · simp [hnone, hg, Registrations.lookup_insert]
        · have hid' : (j.id = id) = False := eq_false fun h => hid h.symm
          rcases granted a j with - | r
          · simp [hid, hid']
          · simp [hid, hid', Registrations.lookup_insert]

end Scheduler
end Courier

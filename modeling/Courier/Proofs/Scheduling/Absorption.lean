import Courier.Proofs.Scheduling.Firing
import Courier.Proofs.Scheduling.Holdings

/-!
Adding a job before a pass.

An addition goes by the job alone, and it always registers anew; a pass goes by what it reads from
the catalog and by timestamps.  On a job of the catalog both come to the same, with one exception: a
registration whose expression does not come up again (`Lapsed`) is kept by a pass, but an addition
drops it and is refused.

The catalog has one job to an id, and a pass reads the enabled ones (`Reads`).  Of the scheduler it
is known that its table and its crontab belong together (`Reached`); of the job, that its
registration is not newer than the job and was made from it if it has its timestamp (`Fits`).  The
latter is what can be trusted here: a pass keeps a registration by its timestamp, and would keep a
wrong entry as well.

Everything is compared by what is held for each id (`Scheduler.holding`).  For the ids of other jobs
both ways do the same whatever they hold (`holding_sync_add_of_ne`); for the job at hand both give
it what it is granted now (`holding_sync_add`, `holding_sync`).

Main statement: a pass absorbs the addition of a job of the catalog just before it, but for that
exception (`sync_absorbs_add`).
-/

namespace Courier

open Time Crontab

namespace Scheduler

/-! ### A job of the catalog -/

/-- What a pass reads from a catalog: its enabled jobs, in some order. -/
structure Reads (catalog jobs : List Job) : Prop where
  distinct : (catalog.map Job.id).Nodup
  enabled : jobs.Perm (catalog.filter Job.enabled)

namespace Reads

variable {catalog jobs : List Job} (h : Reads catalog jobs)

include h

theorem nodup : (jobs.map Job.id).Nodup :=
  (h.enabled.map Job.id).nodup_iff.mpr (h.distinct.sublist (List.filter_sublist.map _))

theorem mem_iff {j : Job} : j ∈ jobs ↔ j ∈ catalog ∧ j.enabled = true := by
  rw [h.enabled.mem_iff, List.mem_filter]

/-- A job of the catalog is what is read under its id, if it is enabled. -/
theorem eq_of_id {i j : Job} (hi : i ∈ jobs) (hj : j ∈ catalog) (hid : i.id = j.id) : i = j :=
  List.inj_on_of_nodup_map h.distinct (h.mem_iff.mp hi).1 hj hid

theorem find?_id {j : Job} (hj : j ∈ catalog) :
    (jobs.find? fun i => i.id = j.id) = if j.enabled then some j else none := by
  split_ifs with henabled
  · exact find?_key_of_mem h.nodup (h.mem_iff.mpr ⟨hj, henabled⟩)
  · refine List.find?_eq_none.mpr fun i hi => ?_
    intro hid
    obtain rfl := h.eq_of_id hi hj (of_decide_eq_true hid)
    exact henabled (h.mem_iff.mp hi).2

end Reads

/-- The registration of a job, if there is one, is not newer than the job, and one of the same
timestamp was made from it. -/
def Fits (s : Scheduler Daemon) (j : Job) : Prop :=
  ∀ r, s.table.lookup j.id = some r → r.updatedAt ≤ j.updatedAt ∧
    (r.updatedAt = j.updatedAt →
      ∃ e, s.queue.crontab.entries.lookup r.entry = some e ∧ e.IsOf j)

/-- Whether an enabled job has a registration of its present version, but its expression does not
come up again. -/
def Lapsed (s : Scheduler Daemon) (now : Instant) (j : Job) : Prop :=
  j.enabled = true ∧ accepts now j.cron = false ∧
    ∃ r, s.table.lookup j.id = some r ∧ r.updatedAt = j.updatedAt

/-- What a scheduler does that adds a job before a pass, against one that only makes the pass.

* `alike`: up to the ids of entries it makes no difference, unless the registration has lapsed.
* `others`: nor does it for the other jobs.
* `lapsed`: a registration that has lapsed is kept by a pass; adding the job drops it with its
  entry, and is refused.
* `traced`: the record of the pass after the addition is that of the pass.
* `calls`: that pass removes entries of other jobs only, and it offers the job just if that has been
  refused before. -/
structure Absorbs (s : Scheduler Daemon) (now : Instant) (jobs : List Job) (j : Job) : Prop where
  alike : ¬ Lapsed s now j → Alike ((s.add now j).2.sync now jobs).2 (s.sync now jobs).2
  others : ∀ id ≠ j.id,
    (((s.add now j).2.sync now jobs).2.table.lookup id).map Registration.updatedAt =
        ((s.sync now jobs).2.table.lookup id).map Registration.updatedAt ∧
      ((s.add now j).2.sync now jobs).2.holding id = (s.sync now jobs).2.holding id
  lapsed : Lapsed s now j → (∃ e, (s.add now j).1 = .error (.register j.id e)) ∧
    ((s.add now j).2.sync now jobs).2.table.lookup j.id = none ∧
      ∃ x, j.holding? = some x ∧ (s.sync now jobs).2.holding j.id = some x ∧
        ((s.sync now jobs).2.queue.crontab.entries.map fun e => e.2.work).Perm
          (x.work :: ((s.add now j).2.sync now jobs).2.queue.crontab.entries.map fun e => e.2.work)
  traced : (s.add now j).2.sync now jobs = (((s.add now j).2.traced.sync now jobs).1,
    ((s.add now j).2.traced.sync now jobs).2.bare)
  calls : ∃ (removed : Registrations) (offered : List Job) (a : Answers),
    ((s.add now j).2.traced.sync now jobs).2.queue.calls =
      (removed.map fun p => .unregister p.2.entry (a.removal p.1)) ++
        offered.filterMap (fun i => offer now (a.entry i.id) i) ∧
    (∀ p ∈ removed, p.1 ≠ j.id ∧ (s.add now j).2.table.lookup p.1 = some p.2 ∧
      ∀ r, (s.add now j).2.table.lookup j.id = some r → p.2.entry ≠ r.entry) ∧
    ∀ i ∈ offered, i ∈ jobs ∧
      (i.id = j.id → ∃ e, (s.add now j).1 = .error (.register j.id e))

/-- A current registration was made from the job itself. -/
theorem holding_of_isCurrent {s : Scheduler Daemon} {j : Job} (hfits : Fits s j)
    (hcurrent : s.table.isCurrent j = true) :
    ∃ r e, s.table.lookup j.id = some r ∧ r.updatedAt = j.updatedAt ∧
      s.holding j.id = j.holding? ∧ Entry.IsOf e j := by
  rcases hr : s.table.lookup j.id with - | r
  · simp [Registrations.isCurrent, hr] at hcurrent
  · have hnew : j.updatedAt ≤ r.updatedAt := by simpa [Registrations.isCurrent, hr] using hcurrent
    obtain ⟨hold, hown⟩ := hfits r hr
    have hupdated : r.updatedAt = j.updatedAt := le_antisymm hold hnew
    obtain ⟨e, he, hof⟩ := hown hupdated
    refine ⟨r, e, rfl, hupdated, ?_, hof⟩
    rw [hof.holding, ← hupdated, holding, holdingOf, hr]
    simp [he]

section Absorption

open Reconciliation

variable {s : Scheduler Daemon} (h : Consistent s) (now : Instant) {catalog jobs : List Job}
  (hreads : Reads catalog jobs) {j : Job} (hj : j ∈ catalog)

include h

/-- What an added job holds, if it is enabled, is what it is granted. -/
theorem holding_add (henabled : j.enabled = true) :
    (s.add now j).2.holding j.id = grant now j := by
  rw [(h.add now j).2.1 j.id, if_pos rfl]
  split_ifs with hschedulable
  · rfl
  · exact (grant_of_not_schedulable henabled hschedulable).symm

/-- An added job has a current registration, if it has been taken. -/
theorem isCurrent_add (henabled : j.enabled = true) :
    (s.add now j).2.table.isCurrent j = takes now j := by
  rw [(h.add now j).1.isCurrent_eq, holding_add h now henabled, updatedAt_grant]
  cases takes now j <;> simp

theorem holding_add_of_ne {id : String} (hid : id ≠ j.id) :
    (s.add now j).2.holding id = s.holding id := by
  rw [(h.add now j).2.1 id, if_neg hid]

include hreads

/-- The other jobs hold the same with the addition and without it. -/
theorem holding_sync_add_of_ne {id : String} (hid : id ≠ j.id) :
    ((s.add now j).2.sync now jobs).2.holding id = (s.sync now jobs).2.holding id := by
  rw [((h.add now j).1.sync now hreads.nodup).2 id, (h.sync now hreads.nodup).2 id]
  rcases hfind : jobs.find? fun i => i.id = id with - | i
  · simp only [hfind]
  · obtain rfl : i.id = id := by simpa using List.find?_some hfind
    simp only [hfind, (h.add now j).1.isCurrent_eq, h.isCurrent_eq, holding_add_of_ne h now hid]

/-- A job is offered in the pass after it has been added just if it was refused then. -/
theorem refused_of_mem_due {a : Answers}
    (hdue : j ∈ Reconciliation.due (s.add now j).2.table jobs a) :
    ∃ e, (s.add now j).1 = .error (.register j.id e) := by
  obtain ⟨hpending, hleft⟩ := List.mem_filter.mp hdue
  obtain ⟨hmem, hcurrent⟩ := List.mem_filter.mp hpending
  have henabled : j.enabled = true := (hreads.mem_iff.mp hmem).2
  rw [isCurrent_add h now henabled] at hcurrent
  have hblank : Text.blank j.cron = false := by
    simp only [leftOut, Bool.not_or, Bool.and_eq_true, Bool.not_eq_true'] at hleft
    exact hleft.2
  exact (h.add now j).2.2 (by simp [Job.schedulable, henabled, hblank]) (by simpa using hcurrent)

include hj

/-- After adding a job of the catalog and a pass, the job holds what it is granted. -/
theorem holding_sync_add :
    ((s.add now j).2.sync now jobs).2.holding j.id = if j.enabled then grant now j else none := by
  rw [((h.add now j).1.sync now hreads.nodup).2 j.id, hreads.find?_id hj]
  by_cases henabled : j.enabled = true
  · simp only [henabled, if_true, holding_add h now henabled, ite_self]
  · simp [henabled]

/-- After a pass alone it does as well, unless it has a registration that has lapsed. -/
theorem holding_sync (hfits : Fits s j) (hlapsed : ¬ Lapsed s now j) :
    (s.sync now jobs).2.holding j.id = if j.enabled then grant now j else none := by
  rw [(h.sync now hreads.nodup).2 j.id, hreads.find?_id hj]
  by_cases henabled : j.enabled = true
  · simp only [henabled, if_true]
    -- what is kept is what would be granted, as the expression still comes up
    split_ifs with hcurrent
    · obtain ⟨r, e, hr, hupdated, hheld, hof⟩ := holding_of_isCurrent hfits hcurrent
      have htakes : takes now j = true := by
        rw [takes_eq_accepts hof.2.2]
        by_contra hnot
        exact hlapsed ⟨henabled, by simpa using hnot, r, hr, hupdated⟩
      rw [hheld, grant, if_pos htakes]
    · rfl
  · simp [henabled]

/-- A pass does not remove what has just been added. -/
theorem ne_of_mem_stale {p : String × Registration}
    (hp : p ∈ stale (s.add now j).2.table jobs) : p.1 ≠ j.id := by
  intro hid
  obtain ⟨hsome, hnot⟩ := mem_stale.mp (List.mem_map_of_mem (f := Prod.fst) hp)
  rw [hid] at hsome hnot
  rw [← (h.add now j).1.isSome_holding] at hsome
  -- an enabled job is current after its addition if it has a registration at all
  by_cases henabled : j.enabled = true
  · rw [holding_add h now henabled, isSome_grant] at hsome
    have hcurrent : current (s.add now j).2.table jobs j.id = true := by
      refine List.any_eq_true.mpr ⟨j, hreads.mem_iff.mpr ⟨hj, henabled⟩, ?_⟩
      simp [isCurrent_add h now henabled, hsome]
    rw [hcurrent] at hnot
    cases hnot
  · -- a job that is turned off has no registration after its addition
    rw [(h.add now j).2.1 j.id, if_pos rfl, Job.schedulable] at hsome
    simp [henabled] at hsome

/-- A registration that has lapsed stays in a pass; adding its job drops it. -/
theorem lapses (hfits : Fits s j) (hlapsed : Lapsed s now j) :
    (∃ e, (s.add now j).1 = .error (.register j.id e)) ∧
      ((s.add now j).2.sync now jobs).2.holding j.id = none ∧
        (s.sync now jobs).2.holding j.id = j.holding? ∧ j.holding?.isSome := by
  obtain ⟨henabled, haccepts, r, hr, hupdated⟩ := hlapsed
  have hcurrent : s.table.isCurrent j = true := by
    simp [Registrations.isCurrent, hr, hupdated]
  obtain ⟨-, e, -, -, hheld, hof⟩ := holding_of_isCurrent hfits hcurrent
  have htakes : takes now j = false := (takes_eq_accepts hof.2.2 now).trans haccepts
  have hblank : Text.blank j.cron = false := by
    by_contra hnot
    have hparse := hof.1
    rw [Cron.Schedule.parse_of_blank (by simpa using hnot)] at hparse
    cases hparse
  refine ⟨(h.add now j).2.2 (by simp [Job.schedulable, henabled, hblank]) htakes, ?_, ?_, ?_⟩
  · rw [holding_sync_add h now hreads hj, if_pos henabled, grant, htakes]
    rfl
  · rw [(h.sync now hreads.nodup).2 j.id, hreads.find?_id hj, if_pos henabled]
    simp only [hcurrent, if_true, hheld]
  · rw [hof.holding]
    rfl

/-- A pass absorbs the addition of a job of the catalog just before it. -/
theorem Consistent.absorbs (hfits : Fits s j) : Absorbs s now jobs j := by
  have hadd := (h.add now j).1
  have hboth := (hadd.sync now hreads.nodup).1
  have hsync := (h.sync now hreads.nodup).1
  have hothers : ∀ id ≠ j.id, ((s.add now j).2.sync now jobs).2.holding id =
      (s.sync now jobs).2.holding id := fun id hid => holding_sync_add_of_ne h now hreads hid
  constructor
  case alike =>
    intro hlapsed
    refine hboth.alike hsync fun id => ?_
    by_cases hid : id = j.id
    · rw [hid, holding_sync_add h now hreads hj, holding_sync h now hreads hj hfits hlapsed]
    · exact hothers id hid
  case others =>
    intro id hid
    exact ⟨hboth.registration_eq hsync (hothers id hid), hothers id hid⟩
  case lapsed =>
    intro hlapsed
    obtain ⟨hrefused, hnone, hkept, hsome⟩ := lapses h now hreads hj hfits hlapsed
    obtain ⟨x, hx⟩ := Option.isSome_iff_exists.mp hsome
    have hheld : (s.sync now jobs).2.holding j.id = some x := hkept.trans hx
    exact ⟨hrefused, hboth.holding_eq_none_iff.mp hnone, x, hx, hheld,
      hboth.entries_perm_cons hsync hnone hheld hothers⟩
  case traced => exact sync_bare (s.add now j).2.traced now jobs
  case calls =>
    obtain ⟨a, queue, table, htraced, -, -⟩ :=
      sync_traced_eq (s.add now j).2 hadd.table now hreads.nodup
    refine ⟨stale (s.add now j).2.table jobs, Reconciliation.due (s.add now j).2.table jobs a, a,
      ?_, ?_, ?_⟩
    · rw [htraced]
      rfl
    · intro p hp
      have hlookup := hadd.table.lookup_of_mem (List.mem_filter.mp hp).1
      have hne := ne_of_mem_stale h now hreads hj hp
      refine ⟨hne, hlookup, fun r hr hentry => hne ?_⟩
      exact congrArg Prod.fst
        (hadd.owner_unique (mem_of_lookup hlookup) (mem_of_lookup hr) hentry)
    · intro i hi
      have hmem : i ∈ jobs := due_sublist.subset hi
      refine ⟨hmem, fun hid => ?_⟩
      -- a job that is offered again was refused before, or it would be current
      obtain rfl := hreads.eq_of_id hmem hj hid
      exact refused_of_mem_due h now hreads hi

end Absorption

/-- Adding a job of the catalog just before a pass makes no difference, whatever has happened before
and whatever the job is; but a registration whose expression does not come up again is lost. -/
theorem sync_absorbs_add {s : Scheduler Daemon} (hs : Reached s) (now : Instant)
    {catalog jobs : List Job} (hreads : Reads catalog jobs) {j : Job} (hj : j ∈ catalog)
    (hfits : Fits s j) : Absorbs s now jobs j :=
  hs.consistent.absorbs now hreads hj hfits

/-- A job for a single day. -/
def single : Job := .new "report" "mail" "0 0 9 1 1 * 2026" ⟨1767225600, 0⟩

/-- A scheduler that has registered it in time. -/
def registered : Scheduler Daemon :=
  (fresh ⟨16, [], true, false⟩ 1000).perform (.add ⟨1767225600, 0⟩ single)

theorem reached_registered : Reached registered := .act (.fresh _ _) _ trivial

/-- The registration was made from the job. -/
theorem fits_registered : Fits registered single := by
  let acts : List Act := [.add ⟨1767225600, 0⟩ single]
  have hsound : Sound (· = single) ((fresh ⟨16, [], true, false⟩ 1000).run acts).traced :=
    (Sound.fresh (· = single) ⟨16, [], true, false⟩ 1000).run_traced
      (by simp [acts, Act.jobs]) (by simp [acts, Act.Distinct])
  intro r hr
  obtain ⟨j, e, rfl, -, hupdated, he, hof⟩ := hsound.booked.made _ r (mem_of_lookup hr)
  exact ⟨le_of_eq hupdated.symm, fun _ => ⟨e, hsound.booked.entries.lookup_of_mem he, hof⟩⟩

/-- The day is over. -/
def nextYear : Instant := ⟨1798761600, 0⟩

theorem lapsed_single : Lapsed registered nextYear single := by
  have hyears : (Cron.Schedule.parse single.cron).map Cron.Schedule.years = .ok [2026] := by
    decide +kernel
  have hpast : accepts nextYear single.cron = false := accepts_of_past hyears (by decide +kernel)
  exact ⟨rfl, hpast, ⟨0, ⟨1767225600, 0⟩⟩, by decide +kernel, rfl⟩

theorem reads_singleton {j : Job} (h : j.enabled = true) : Reads [j] [j] := ⟨by simp, by simp [h]⟩

/-- Adding a job that does not come up again loses the registration that a pass keeps. -/
theorem not_alike_single :
    Reached registered ∧ Reads [single] [single] ∧ Fits registered single ∧
      ¬ Alike ((registered.add nextYear single).2.sync nextYear [single]).2
        (registered.sync nextYear [single]).2 := by
  refine ⟨reached_registered, reads_singleton rfl, fits_registered, fun halike => ?_⟩
  obtain ⟨-, hnone, hkept, hsome⟩ := lapses reached_registered.consistent nextYear
    (reads_singleton rfl) List.mem_cons_self fits_registered lapsed_single
  have hheld := halike.holdings single.id
  rw [hnone, hkept] at hheld
  rw [← hheld] at hsome
  cases hsome

/-- The job is edited to come up every year. -/
def yearly : Job := .new "report" "mail" "0 0 9 1 1 *" ⟨1767225601, 0⟩

theorem sync_absorbs_add_yearly :
    Reached registered ∧ Reads [yearly] [yearly] ∧ yearly ∈ [yearly] ∧ Fits registered yearly ∧
      Absorbs registered nextYear [yearly] yearly := by
  have hold : registered.table.lookup yearly.id = some ⟨0, ⟨1767225600, 0⟩⟩ := by decide +kernel
  have hfits : Fits registered yearly := by
    intro r hr
    obtain rfl := Option.some.inj (hold.symm.trans hr)
    exact ⟨by decide, fun heq => absurd heq (by decide)⟩
  exact ⟨reached_registered, reads_singleton rfl, List.mem_cons_self, hfits,
    sync_absorbs_add reached_registered nextYear (reads_singleton rfl) List.mem_cons_self hfits⟩

end Scheduler
end Courier

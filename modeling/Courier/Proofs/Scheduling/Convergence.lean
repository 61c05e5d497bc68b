import Courier.Proofs.Scheduling.Entries
import Courier.Proofs.Time.Stored

/-!
The crontab and the catalog.

A `Site` is a catalog with a scheduler that reads it.  It also keeps the versions of the jobs, that
is, every row that was ever written and the timestamp it was written with; nothing depends on them.

A pass goes by timestamps, and what can be said after it depends on how these come about.  A job is
saved with a timestamp that is later than those of all its earlier versions (`Site.Allowed`).
Turning a job on or off writes whatever the clock shows, also when this is earlier; but it does not
change what the job does (`Catalog.Row.SameWork`).  Therefore a registration that is kept can be
wrong in one way only: a later version was saved, and then turned on or off by a clock that was
behind (`Site.Outdated`).

The invariant is `Site.Kept`.  It says that the rows are the last versions of their ids, that saved
versions are later than all before them, and that every registration is of a version after which the
work was changed only with a later timestamp (`Site.Backed`).

Main statement: after every pass the crontab has the entries of the enabled jobs, one for each that
can be scheduled, and every entry is that of its job as it is in the catalog, unless the job has
been turned on or off by a clock that was behind the timestamp of a version saved before
(`Site.converged_run`).
-/

namespace Courier

open Time Crontab

/-- Whether two rows say the same, but for whether the job is enabled and since when. -/
def Catalog.Row.SameWork (r r' : Catalog.Row) : Prop :=
  r.id = r'.id ∧ r.name = r'.name ∧ r.cron = r'.cron ∧ r.payload = r'.payload ∧
    r.options = r'.options

theorem Catalog.Row.SameWork.trans {r r' r'' : Catalog.Row} (h : r.SameWork r')
    (h' : r'.SameWork r'') : r.SameWork r'' := by
  obtain ⟨hid, hname, hcron, hpayload, hoptions⟩ := h
  obtain ⟨hid', hname', hcron', hpayload', hoptions'⟩ := h'
  exact ⟨hid.trans hid', hname.trans hname', hcron.trans hcron', hpayload.trans hpayload',
    hoptions.trans hoptions'⟩

/-- The jobs of rows that say the same have the same entries. -/
theorem Crontab.Entry.IsOf.of_sameWork {e : Crontab.Entry} {r r' : Catalog.Row} {j j' : Job}
    (he : e.IsOf j') (h : r.SameWork r') (hj : r.job = .ok j) (hj' : r'.job = .ok j') :
    e.IsOf j := by
  obtain ⟨hid, hname, hcron, hpayload, hoptions, -⟩ := Catalog.Row.of_job hj
  obtain ⟨hid', hname', hcron', hpayload', hoptions', -⟩ := Catalog.Row.of_job hj'
  obtain ⟨heqid, heqname, heqcron, heqpayload, heqoptions⟩ := h
  have hcrons : j.cron = j'.cron := by rw [hcron, hcron', heqcron]
  have hopts : j.options = j'.options := by
    rw [heqoptions, hoptions'] at hoptions
    exact (Except.ok.inj hoptions).symm
  have htask : Task.ofJob j = Task.ofJob j' := by
    rw [heqpayload, hpayload'] at hpayload
    rw [Task.ofJob, Task.ofJob, hid, hid', heqid, hname, hname', heqname,
      Except.ok.inj hpayload]
  unfold Crontab.Entry.IsOf
  rw [hcrons, hopts, htask]
  exact he

namespace Scheduler

/-! ### Catalog, scheduler and versions -/

/-- A row as it was once written.

* `time`: the timestamp that it was written with.
* `toggled`: whether the job was turned on or off, and not saved. -/
structure Version where
  row : Catalog.Row
  time : Instant
  toggled : Bool

/-- A catalog with a scheduler that reads it.

* `versions`: the versions of all jobs, newest first. -/
structure Site where
  catalog : Catalog
  scheduler : Scheduler Daemon
  versions : List Version

/-- What happens to a catalog and its scheduler.

* `sync`: a pass that begins to read the catalog at an instant of the running clock.
* `work`: the crontab fires what is due. -/
inductive Change
  | save (j : Job)
  | setEnabled (id : String) (enabled : Bool) (now : Instant)
  | remove (id : String)
  | sync (wall : Instant) (now timeout : Nat)
  | work (m : Moment)

namespace Site

/-- No jobs and no entries. -/
def start (channel : Channel) (period : Nat) : Site := ⟨.empty, fresh channel period, []⟩

/-- A new catalog, in which an id has a new version. -/
def note (s : Site) (c : Catalog) (id : String) (time : Instant) (toggled : Bool) : Site :=
  { s with
    catalog := c
    versions := ((c.row? id).map fun row => ⟨row, time, toggled⟩).toList ++ s.versions }

/-- The site after a change. -/
def step (s : Site) : Change → Site
  | .save j =>
    match s.catalog.save j with
    | .ok c => s.note c j.id j.updatedAt false
    | .error _ => s
  | .setEnabled id enabled now =>
    match s.catalog.setEnabled id enabled now with
    | .ok c => s.note c id now true
    | .error _ => s
  | .remove id =>
    match s.catalog.remove id with
    | .ok c => { s with catalog := c }
    | .error _ => s
  | .sync wall now timeout =>
    { s with scheduler := s.scheduler.perform (.sync wall (JobSource.feed s.catalog) now timeout) }
  | .work m => { s with scheduler := s.scheduler.perform (.work m) }

/-- The site after some changes. -/
def run (s : Site) (changes : List Change) : Site := changes.foldl step s

/-- What a pass reads. -/
def read (s : Site) (now timeout : Nat) : Except SchedulerError (List Job) :=
  ((JobSource.feed s.catalog).read now timeout).2

/-- A job may be saved that is new, or has a later timestamp than all earlier versions. -/
def Allowed (s : Site) : Change → Prop
  | .save j => j.updatedAt.Proper ∧ ∀ v ∈ s.versions, v.row.id = j.id → v.time < j.updatedAt
  | .setEnabled _ _ now => now.Proper
  | _ => True

/-- Whether all of some changes are allowed. -/
def Lawful (s : Site) : List Change → Prop
  | [] => True
  | change :: changes => s.Allowed change ∧ (s.step change).Lawful changes

instance (s : Site) : (change : Change) → Decidable (s.Allowed change)
  | .save j => inferInstanceAs (Decidable (_ ∧ ∀ v ∈ s.versions, v.row.id = j.id → _))
  | .setEnabled _ _ now => inferInstanceAs (Decidable now.Proper)
  | .remove _ | .sync .. | .work _ => inferInstanceAs (Decidable True)

instance decidableLawful (s : Site) : (changes : List Change) → Decidable (s.Lawful changes)
  | [] => inferInstanceAs (Decidable True)
  | change :: changes =>
    have := decidableLawful (s.step change) changes
    inferInstanceAs (Decidable (s.Allowed change ∧ (s.step change).Lawful changes))

/-! ### Every registration is of a version -/

/-- Whether a job is a version, after which its work was changed only with a later timestamp. -/
def Backed (s : Site) (j : Job) : Prop :=
  ∃ v ∈ s.versions, v.row.job = .ok j ∧
    ∀ r, s.catalog.row? j.id = some r → r.SameWork v.row ∨
      ∃ w ∈ s.versions, w.row.id = j.id ∧ w.toggled = false ∧ v.time < w.time

/-- What all changes preserve.

* `latest`: the rows are the last versions of their ids.
* `ordered`: a version that was saved is later than all versions before it. -/
structure Kept (s : Site) : Prop where
  opened : s.catalog.table.isSome
  distinct : s.catalog.Distinct
  latest : ∀ id r, s.catalog.row? id = some r →
    ∃ v, (s.versions.find? fun v => v.row.id = id) = some v ∧ v.row = r
  stamped : ∀ v ∈ s.versions, v.row.updatedAt = v.time.stored ∧ v.time.Proper
  ordered : s.versions.Pairwise fun newer older =>
    newer.row.id = older.row.id → newer.toggled = false → older.time < newer.time
  sound : Sound s.Backed s.scheduler.traced

variable {s : Site}

theorem kept_start (channel : Channel) (period : Nat) : (start channel period).Kept where
  opened := rfl
  distinct := List.nodup_nil
  latest := by
    intro id r hr
    cases hr
  stamped := by
    intro v hv
    cases hv
  ordered := .nil
  sound := .fresh _ channel period

theorem note_eq {c : Catalog} {id : String} {row : Catalog.Row} (hrow : c.row? id = some row)
    (time : Instant) (toggled : Bool) :
    s.note c id time toggled = ⟨c, s.scheduler, ⟨row, time, toggled⟩ :: s.versions⟩ := by
  simp [note, hrow]

/-- A new version is saved with a later timestamp, or it does the same work as the one before. -/
theorem Kept.note (h : s.Kept) {c : Catalog} {id : String} {time : Instant} {toggled : Bool}
    (hopened : c.table.isSome) (hdistinct : c.Distinct) {row : Catalog.Row}
    (hrow : c.row? id = some row) (hother : ∀ id' ≠ id, c.row? id' = s.catalog.row? id')
    (hstored : row.updatedAt = time.stored) (hproper : time.Proper)
    (hsaved : toggled = false → ∀ v ∈ s.versions, v.row.id = id → v.time < time)
    (htoggled : toggled = true → ∃ r, s.catalog.row? id = some r ∧ row.SameWork r) :
    (s.note c id time toggled).Kept := by
  have hid : row.id = id := Catalog.id_of_row? hrow
  rw [note_eq hrow]
  constructor
  case opened => exact hopened
  case distinct => exact hdistinct
  case latest =>
    -- the id at hand has the new version, every other one its last version of before
    intro id' r hr
    by_cases heq : id' = id
    · subst heq
      obtain rfl : row = r := Option.some.inj (hrow.symm.trans hr)
      exact ⟨⟨row, time, toggled⟩, by simp [hid], rfl⟩
    · rw [hother id' heq] at hr
      obtain ⟨v, hv, hvr⟩ := h.latest id' r hr
      have hne : ¬ row.id = id' := fun hrow => heq (hrow.symm.trans hid)
      exact ⟨v, by simpa [hne] using hv, hvr⟩
  case stamped =>
    intro v hv
    rcases List.mem_cons.mp hv with rfl | hv
    · exact ⟨hstored, hproper⟩
    · exact h.stamped v hv
  case ordered =>
    refine List.pairwise_cons.mpr ⟨?_, h.ordered⟩
    intro v hv hvid hnot
    exact hsaved hnot v hv (hvid.symm.trans hid)
  case sound =>
    refine h.sound.mono fun j hj => ?_
    obtain ⟨v, hv, hjob, hwork⟩ := hj
    refine ⟨v, List.mem_cons_of_mem _ hv, hjob, fun r hr => ?_⟩
    -- an earlier change of the work is one still
    have hearlier : (∃ w ∈ s.versions, w.row.id = j.id ∧ w.toggled = false ∧ v.time < w.time) →
        ∃ w ∈ (⟨row, time, toggled⟩ :: s.versions : List Version),
          w.row.id = j.id ∧ w.toggled = false ∧ v.time < w.time := by
      rintro ⟨w, hw, hafter⟩
      exact ⟨w, List.mem_cons_of_mem _ hw, hafter⟩
    -- a registration of this id is now of an earlier version
    by_cases heq : j.id = id
    · rw [heq] at hr hwork hearlier ⊢
      obtain rfl : row = r := Option.some.inj (hrow.symm.trans hr)
      cases toggled with
      | false =>
        -- the new version was saved, and later than the one that was registered
        have hvid : v.row.id = id := (Catalog.Row.of_job hjob).1.symm.trans heq
        exact .inr ⟨⟨row, time, false⟩, List.mem_cons_self, hid, rfl, hsaved rfl v hv hvid⟩
      | true =>
        -- the new version does the same work as the last one
        obtain ⟨r, hr', hsame⟩ := htoggled rfl
        rcases hwork r hr' with hwork | hwork
        · exact .inl (hsame.trans hwork)
        · exact .inr (hearlier hwork)
    · rw [hother j.id heq] at hr
      rcases hwork r hr with hwork | hwork
      · exact .inl hwork
      · exact .inr (hearlier hwork)

/-- The work of a job that is read is that of its last version. -/
theorem Kept.backed (h : s.Kept) {j : Job} (hj : j ∈ (JobSource.feed s.catalog).jobs) :
    s.Backed j := by
  obtain ⟨r, hr, -, hjob⟩ :=
    (Catalog.mem_enabled h.distinct h.opened).mp (Feed.mem_jobs_catalog.mp hj)
  obtain ⟨v, hv, rfl⟩ := h.latest r.id r hr
  refine ⟨v, List.mem_of_find?_eq_some hv, hjob, fun r' hr' => ?_⟩
  rw [(Catalog.Row.of_job hjob).1, hr] at hr'
  obtain rfl := Option.some.inj hr'
  exact .inl ⟨rfl, rfl, rfl, rfl, rfl⟩

/-- What is done to the scheduler with the jobs that are read. -/
theorem Kept.perform (h : s.Kept) {act : Act}
    (hact : ∀ j ∈ act.jobs, j ∈ (JobSource.feed s.catalog).jobs) (hids : act.Distinct) :
    ({ s with scheduler := s.scheduler.perform act } : Site).Kept where
  opened := h.opened
  distinct := h.distinct
  latest := h.latest
  stamped := h.stamped
  ordered := h.ordered
  sound := by
    show Sound s.Backed (s.scheduler.run [act]).traced
    refine h.sound.run_traced ?_ ?_
    · intro a ha j hj
      rw [List.mem_singleton.mp ha] at hj
      exact h.backed (hact j hj)
    · intro a ha
      rw [List.mem_singleton.mp ha]
      exact hids

theorem Kept.save (h : s.Kept) {j : Job} (hproper : j.updatedAt.Proper)
    (hlater : ∀ v ∈ s.versions, v.row.id = j.id → v.time < j.updatedAt) :
    (s.step (.save j)).Kept := by
  rw [step]
  rcases hsave : s.catalog.save j with e | c
  · exact h
  · have hrow : c.row? j.id = some (Catalog.Row.ofJob j) := by
      rw [Catalog.row?_save hsave, if_pos rfl]
    refine h.note (Catalog.isSome_save hsave) (Catalog.distinct_save h.distinct hsave) hrow ?_ rfl
      hproper (fun _ => hlater) (fun hnot => absurd hnot Bool.false_ne_true)
    intro id hne
    rw [Catalog.row?_save hsave, if_neg (Ne.symm hne)]

theorem Kept.setEnabled (h : s.Kept) (id : String) (enabled : Bool) {now : Instant}
    (hproper : now.Proper) : (s.step (.setEnabled id enabled now)).Kept := by
  rw [step]
  -- a refused change leaves everything as it is
  rcases hset : s.catalog.setEnabled id enabled now with e | c
  · exact h
  · obtain ⟨r, hr⟩ := Option.isSome_iff_exists.mp (Catalog.setEnabled_eq hset).1
    have hrow : c.row? id = some (r.turned enabled now) := by
      rw [Catalog.row?_setEnabled hset, if_pos rfl, hr]
      rfl
    refine h.note (Catalog.isSome_setEnabled hset) (Catalog.distinct_setEnabled h.distinct hset)
      hrow ?_ rfl hproper (fun hnot => absurd hnot.symm Bool.false_ne_true)
      (fun _ => ⟨r, hr, rfl, rfl, rfl, rfl, rfl⟩)
    intro id' hne
    rw [Catalog.row?_setEnabled hset, if_neg (Ne.symm hne)]

theorem Kept.remove (h : s.Kept) (id : String) : (s.step (.remove id)).Kept := by
  rw [step]
  rcases hremove : s.catalog.remove id with e | c
  · exact h
  · -- what is left was there before
    have hleft : ∀ id' r, c.row? id' = some r → s.catalog.row? id' = some r := by
      intro id' r hr
      rw [Catalog.row?_remove hremove] at hr
      split at hr
      · cases hr
      · exact hr
    constructor
    case opened => exact Catalog.isSome_remove hremove
    case distinct => exact Catalog.distinct_remove h.distinct hremove
    case latest => exact fun id' r hr => h.latest id' r (hleft id' r hr)
    case stamped => exact h.stamped
    case ordered => exact h.ordered
    case sound =>
      refine h.sound.mono fun j hj => ?_
      obtain ⟨v, hv, hjob, hwork⟩ := hj
      exact ⟨v, hv, hjob, fun r hr => hwork r (hleft j.id r hr)⟩

theorem Kept.step (h : s.Kept) {change : Change} (hallowed : s.Allowed change) :
    (s.step change).Kept := by
  cases change with
  | save j => exact h.save hallowed.1 hallowed.2
  | setEnabled id enabled now => exact h.setEnabled id enabled hallowed
  | remove id => exact h.remove id
  | sync wall now timeout =>
    exact h.perform (fun j hj => hj) (Feed.nodup_ids_catalog h.distinct)
  | work m => exact h.perform (fun j hj => absurd hj List.not_mem_nil) trivial

theorem Kept.run (h : s.Kept) {changes : List Change} (hlawful : s.Lawful changes) :
    (s.run changes).Kept := by
  induction changes generalizing s with
  | nil => exact h
  | cons change changes ih => exact ih (h.step hlawful.1) hlawful.2

/-- A version that can be read has the timestamp that it was written with. -/
theorem Kept.updatedAt_eq (h : s.Kept) {v : Version} (hv : v ∈ s.versions) {j : Job}
    (hj : v.row.job = .ok j) : j.updatedAt = v.time := by
  obtain ⟨hstored, hproper⟩ := h.stamped v hv
  obtain ⟨-, -, -, -, -, htime⟩ := Catalog.Row.of_job hj
  rw [hstored, Catalog.Row.readTime] at htime
  split at htime
  · rename_i at_ hread
    obtain rfl := Except.ok.inj htime
    exact Timestamp.eq_of_strict?_stored hproper hread
  · cases htime

/-- No version is later than the last one if that was saved. -/
theorem Kept.time_le (h : s.Kept) {id : String} {present v : Version}
    (hpresent : (s.versions.find? fun v => v.row.id = id) = some present)
    (hsaved : present.toggled = false) (hv : v ∈ s.versions) (hid : v.row.id = id) :
    v.time ≤ present.time := by
  obtain ⟨hpid, newer, older, hsplit, hnewer⟩ := List.find?_eq_some_iff_append.mp hpresent
  have hordered := h.ordered
  rw [hsplit] at hv hordered
  -- what comes before it in the list is of other ids
  rcases List.mem_append.mp hv with hv | hv
  · have hne := hnewer v hv
    simp [hid] at hne
  · rcases List.mem_cons.mp hv with rfl | hv
    · exact le_refl _
    · have hbefore := List.rel_of_pairwise_cons (List.pairwise_append.mp hordered).2.1 hv
      exact le_of_lt (hbefore (by simpa [hid] using hpid) hsaved)

/-! ### After a pass -/

/-- The crontab of a site. -/
def crontab (s : Site) : Crontab := s.scheduler.queue.crontab

/-- Whether an entry of the crontab belongs to a job. -/
def Holds (s : Site) (id : String) (n : EntryId) : Prop :=
  (∃ r, s.scheduler.table.lookup id = some r ∧ r.entry = n) ∧ (s.crontab.entries.lookup n).isSome

/-- Whether an entry is that of an older version of a job, since the job was last turned on or off
by a clock that was not ahead of that version, while its work had been saved anew in between. -/
def Outdated (s : Site) (j : Job) (e : Crontab.Entry) : Prop :=
  ∃ present older newer, (s.versions.find? fun v => v.row.id = j.id) = some present ∧
    older ∈ s.versions ∧ newer ∈ s.versions ∧
    (∃ i, older.row.job = .ok i ∧ i.id = j.id ∧ e.IsOf i) ∧
    newer.row.id = j.id ∧ newer.toggled = false ∧ present.toggled = true ∧
    present.time ≤ older.time ∧ older.time < newer.time

/-- What a pass at an instant has to establish.

* `entries`: every entry belongs to an enabled job and is that of the job as it is in the catalog,
  unless it is outdated.
* `scheduled`: every enabled job that the crontab takes has exactly one entry.
* `unscheduled`: other jobs have none.
* `once`: no entry is there twice or belongs to two jobs. -/
structure Converged (s : Site) (now : Instant) : Prop where
  entries : ∀ n e, s.crontab.entries.lookup n = some e →
    ∃ j, .ok j ∈ s.catalog.enabled ∧ s.Holds j.id n ∧ (e.IsOf j ∨ s.Outdated j e)
  scheduled : ∀ j, .ok j ∈ s.catalog.enabled → Crontab.accepts now j.cron = true →
    (TaskOption.ofJobOptions j.options).isOk → ∃! n, s.Holds j.id n
  unscheduled : ∀ id, (∀ j, .ok j ∈ s.catalog.enabled → j.id ≠ id) → ∀ n, ¬ s.Holds id n
  once : Keyed s.crontab.entries ∧ ∀ id id' n, s.Holds id n → s.Holds id' n → id = id'

/-- An entry that is not that of its job is outdated. -/
theorem Kept.isOf_or_outdated (h : s.Kept) {i j : Job} (hi : s.Backed i)
    (hj : j ∈ (JobSource.feed s.catalog).jobs) (hid : i.id = j.id) {e : Crontab.Entry}
    (he : e.IsOf i) (hcurrent : j.updatedAt ≤ i.updatedAt) : e.IsOf j ∨ s.Outdated j e := by
  obtain ⟨older, holder, hijob, hwork⟩ := hi
  obtain ⟨r, hr, -, hjjob⟩ :=
    (Catalog.mem_enabled h.distinct h.opened).mp (Feed.mem_jobs_catalog.mp hj)
  have hjid : j.id = r.id := (Catalog.Row.of_job hjjob).1
  rw [← hjid] at hr
  -- the row does the work of the version, or it was saved later
  rcases hwork r (hid ▸ hr) with hsame | ⟨newer, hnewer, hnid, hsaved, hlater⟩
  · exact .inl (he.of_sameWork hsame hjjob hijob)
  · obtain ⟨present, hpresent, rfl⟩ := h.latest j.id r hr
    have hle : present.time ≤ older.time := by
      rw [← h.updatedAt_eq (List.mem_of_find?_eq_some hpresent) hjjob,
        ← h.updatedAt_eq holder hijob]
      exact hcurrent
    -- a saved version would be the latest of all
    have htoggled : present.toggled = true := by
      by_contra hnot
      have hlast := h.time_le hpresent (by simpa using hnot) hnewer (hnid.trans hid)
      exact absurd (lt_of_le_of_lt (le_trans hlast hle) hlater) (lt_irrefl _)
    exact .inr ⟨present, older, newer, hpresent, holder, hnewer, ⟨i, hijob, hid, he⟩,
      hnid.trans hid, hsaved, htoggled, hle, hlater⟩

/-- A pass that has read the jobs makes the crontab converge. -/
theorem Kept.converged (h : s.Kept) (wall : Instant) {now timeout : Nat} {jobs : List Job}
    (hread : s.read now timeout = .ok jobs) :
    (s.step (.sync wall now timeout)).Converged wall := by
  have hfeed : jobs = (JobSource.feed s.catalog).jobs := Feed.jobs_of_read hread
  have hids : (jobs.map Job.id).Nodup := hfeed ▸ Feed.nodup_ids_catalog h.distinct
  have hjobs : ∀ j ∈ jobs, s.Backed j := fun j hj => h.backed (hfeed ▸ hj)
  have hsync : s.step (.sync wall now timeout) =
      { s with scheduler := (s.scheduler.sync wall jobs).2 } := by
    show { s with scheduler := s.scheduler.pass wall (s.read now timeout) } = _
    rw [hread]
    rfl
  have hallowed : s.Allowed (.sync wall now timeout) := trivial
  have hkept := h.step hallowed
  rw [hsync] at hkept ⊢
  generalize hs' : (⟨s.catalog, (s.scheduler.sync wall jobs).2, s.versions⟩ : Site) = s' at *
  have hbooked : Booked s'.Backed s'.scheduler.table s'.crontab := hkept.sound.booked
  have hcatalog : s'.catalog = s.catalog := by rw [← hs']
  have htable : s'.scheduler.table = (s.scheduler.sync wall jobs).2.table := by rw [← hs']
  have hcurrent : ∀ id r, s'.scheduler.table.lookup id = some r →
      ∃ j ∈ jobs, j.id = id ∧ j.updatedAt ≤ r.updatedAt := by
    intro id r hr
    rw [htable] at hr
    exact h.sound.current_of_sync wall hjobs hids hr
  constructor
  case entries =>
    intro n e he
    obtain ⟨id, r, hr, rfl⟩ := hbooked.owner (List.mem_map_of_mem (mem_of_lookup he))
    have hlookup := hbooked.table.lookup_of_mem hr
    obtain ⟨j, hj, rfl, hle⟩ := hcurrent id r hlookup
    -- the entry was made from a version that is at least as new as what was read
    obtain ⟨i, e', hi, hid, hat, he', hof⟩ := hbooked.made j.id r hr
    obtain rfl : e' = e := Option.some.inj ((hbooked.entries.lookup_of_mem he').symm.trans he)
    rw [hfeed, ← hcatalog] at hj
    refine ⟨j, Feed.mem_jobs_catalog.mp hj, ⟨⟨r, hlookup, rfl⟩, by rw [he]; rfl⟩, ?_⟩
    exact hkept.isOf_or_outdated hi hj hid hof (hat ▸ hle)
  case scheduled =>
    intro j hj haccepts hoptions
    rw [hcatalog, ← Feed.mem_jobs_catalog, ← hfeed] at hj
    obtain ⟨options, hoptions⟩ : ∃ options, TaskOption.ofJobOptions j.options = .ok options := by
      rcases hread : TaskOption.ofJobOptions j.options with e | options
      · rw [hread] at hoptions
        cases hoptions
      · exact ⟨options, rfl⟩
    have hsome := h.sound.registered_of_sync wall hjobs hids hj haccepts hoptions
    rw [← htable] at hsome
    obtain ⟨r, hr⟩ := Option.isSome_iff_exists.mp hsome
    have hlive := mem_keys_iff_isSome.mp (hbooked.live (mem_of_lookup hr))
    refine ⟨r.entry, ⟨⟨r, hr, rfl⟩, hlive⟩, ?_⟩
    -- an id has one registration, and that one entry
    rintro n ⟨⟨r', hr', rfl⟩, -⟩
    rw [Option.some.inj (hr.symm.trans hr')]
  case unscheduled =>
    rintro id hother n ⟨⟨r, hr, -⟩, -⟩
    obtain ⟨j, hj, hid, -⟩ := hcurrent id r hr
    rw [hfeed, ← hcatalog] at hj
    exact hother j (Feed.mem_jobs_catalog.mp hj) hid
  case once =>
    refine ⟨hbooked.entries, ?_⟩
    rintro id id' n ⟨⟨r, hr, hn⟩, -⟩ ⟨⟨r', hr', hn'⟩, -⟩
    exact congrArg Prod.fst
      (hbooked.owner_unique (mem_of_lookup hr) (mem_of_lookup hr') (hn.trans hn'.symm))

/-- After every pass that has read the catalog, whatever has happened before, the crontab has the
entries of the enabled jobs. -/
theorem converged_run (channel : Channel) (period : Nat) {changes : List Change}
    (hlawful : (start channel period).Lawful changes) (wall : Instant) {now timeout : Nat}
    {jobs : List Job} (hread : ((start channel period).run changes).read now timeout = .ok jobs) :
    (((start channel period).run changes).step (.sync wall now timeout)).Converged wall :=
  ((kept_start channel period).run hlawful).converged wall hread

/-- A job is registered and then saved anew; before the next pass it is turned off and on again by a
clock that was set back behind both. -/
def setBack : List Change :=
  [.save (.new "a" "mail" "0 0 1 2 *" ⟨10, 0⟩), .sync ⟨30, 0⟩ 0 60000,
    .save (.new "a" "mail" "0 0 1 3 *" ⟨20, 0⟩), .setEnabled "a" false ⟨5, 0⟩,
    .setEnabled "a" true ⟨5, 0⟩]

theorem converged_run_setBack :
    (start ⟨16, [], true, false⟩ 1000).Lawful setBack ∧
      ((start ⟨16, [], true, false⟩ 1000).run setBack).read 0 60000 =
        .ok [.new "a" "mail" "0 0 1 3 *" ⟨5, 0⟩] ∧
      (((start ⟨16, [], true, false⟩ 1000).run setBack).step (.sync ⟨5, 0⟩ 0 60000)).Converged
        ⟨5, 0⟩ ∧
      (((start ⟨16, [], true, false⟩ 1000).run setBack).step (.sync ⟨5, 0⟩ 0 60000)).scheduler.table =
        [("a", ⟨0, ⟨10, 0⟩⟩)] := by
  have hlawful : (start ⟨16, [], true, false⟩ 1000).Lawful setBack := by decide +kernel
  have hread : ((start ⟨16, [], true, false⟩ 1000).run setBack).read 0 60000 =
      .ok [.new "a" "mail" "0 0 1 3 *" ⟨5, 0⟩] := by decide +kernel
  exact ⟨hlawful, hread, converged_run ⟨16, [], true, false⟩ 1000 hlawful ⟨5, 0⟩ hread,
    by decide +kernel⟩

end Site
end Scheduler
end Courier

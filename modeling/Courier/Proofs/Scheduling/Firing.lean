import Courier.Proofs.Cron.Next
import Courier.Proofs.Scheduling.Entries

/-!
Firings of jobs.

A `Desk` is a source of jobs with the scheduler that reads it, and `Desk.run` is any mix of edits of
the source, operations of the scheduler and looks at the crontab.

Whatever happens, what is there afterwards was there before, or it is new and fires later
(`Onward`); this goes from the parts of each operation to the operation and on to a run
(`Desk.onward_step`).  Ids of entries are given only once.  So an entry stays that of its job as
long as it is there (`Sorted.owns_of_owns`), and no entry of a job waits for an occurrence that has
made one of its entries due (`Sorted.past_of_past`): such an occurrence is not later than the look,
and what comes after it under a clock that does not go back is.

Of the sources it is asked that their jobs have distinct ids (`Event.Tidy`), or else a job would
have two entries.

Main statement: under a clock that does not go back, no occurrence makes entries of a job due at two
looks, however often the job is registered anew in between, and only registered jobs have entries
that become due (`Desk.occurrence_once`).
-/

namespace Courier

open Time Crontab

/-- The crontab does not take a schedule whose years are over. -/
theorem Crontab.accepts_of_past {now : Instant} {expr : String} {years : List Nat}
    (hparse : (Cron.Schedule.parse expr).map Cron.Schedule.years = .ok years)
    (hyears : ∀ y ∈ years, (y : Int) < now.date.year) : accepts now expr = false := by
  unfold accepts
  rcases hschedule : Cron.Schedule.parse expr with e | schedule
  · rfl
  · rw [hschedule] at hparse
    obtain rfl := Except.ok.inj hparse
    simp [Cron.Schedule.next_of_past hyears]

/-- A new entry has a fresh id and fires later. -/
theorem Crontab.later_of_register {c c' : Crontab} {now : Instant} {expr : String} {task : Task}
    {options : List TaskOption} {n : EntryId}
    (h : c.register now expr task options = .ok (n, c')) :
    n = c.fresh ∧ c'.fresh = c.fresh + 1 ∧ ∃ e : Crontab.Entry,
      c'.entries = c.entries ++ [(c.fresh, e)] ∧ ∀ next, e.nextRun = some next → now < next := by
  unfold register at h
  split at h
  · cases h
  · rename_i schedule _
    split at h
    · cases h
    · rename_i first hfirst
      obtain ⟨rfl, rfl⟩ := Prod.mk.inj (Except.ok.inj h)
      refine ⟨rfl, rfl, ⟨schedule, task, options, some first⟩, rfl, ?_⟩
      intro next hnext
      obtain rfl := Option.some.inj hnext
      exact Cron.Schedule.lt_of_next hfirst

/-- What is due fires later, or never again. -/
theorem Crontab.Entry.later_of_moveOn {e : Crontab.Entry} {now next : Instant}
    (h : (e.moveOn now).nextRun = some next) : now < next :=
  Cron.Schedule.lt_of_next h

namespace Scheduler

/-! ### What is there afterwards -/

/-- Registrations and entries that are there afterwards were there before, or they are new; and an
entry that is not as it was before runs next only at certain instants. -/
structure Onward (P : Instant → Prop) (s s' : Scheduler Daemon) : Prop where
  fresh : s.queue.crontab.fresh ≤ s'.queue.crontab.fresh
  rows : ∀ id r, s'.table.lookup id = some r →
    s.table.lookup id = some r ∨ s.queue.crontab.fresh ≤ r.entry
  ids : ∀ n ∈ s'.queue.crontab.entries.map Prod.fst,
    n ∈ s.queue.crontab.entries.map Prod.fst ∨ s.queue.crontab.fresh ≤ n
  entries : ∀ n e, (n, e) ∈ s'.queue.crontab.entries → (n, e) ∈ s.queue.crontab.entries ∨
    ∀ next, e.nextRun = some next → P next

namespace Onward

variable {P Q : Instant → Prop} {s s' s'' : Scheduler Daemon}

theorem refl (P : Instant → Prop) (s : Scheduler Daemon) : Onward P s s where
  fresh := Nat.le_refl _
  rows := fun _ _ hr => .inl hr
  ids := fun _ hn => .inl hn
  entries := fun _ _ he => .inl he

theorem trans (h : Onward P s s') (h' : Onward P s' s'') : Onward P s s'' where
  fresh := Nat.le_trans h.fresh h'.fresh
  rows := by
    intro id r hr
    rcases h'.rows id r hr with hr | hr
    · exact h.rows id r hr
    · exact .inr (Nat.le_trans h.fresh hr)
  ids := by
    intro n hn
    rcases h'.ids n hn with hn | hn
    · exact h.ids n hn
    · exact .inr (Nat.le_trans h.fresh hn)
  entries := by
    intro n e he
    rcases h'.entries n e he with he | hlater
    · exact h.entries n e he
    · exact .inr hlater

theorem mono (h : Onward P s s') (hPQ : ∀ next, P next → Q next) : Onward Q s s' where
  fresh := h.fresh
  rows := h.rows
  ids := h.ids
  entries := by
    intro n e he
    rcases h.entries n e he with he | hlater
    · exact .inl he
    · exact .inr fun next hnext => hPQ next (hlater next hnext)

/-- A removal adds nothing. -/
theorem unregister (P : Instant → Prop) (s : Scheduler Daemon) (id : String) :
    Onward P s (s.unregister id).2 := by
  unfold Scheduler.unregister
  split
  · exact refl P s
  · rename_i r _
    rcases hcrontab : s.queue.crontab.unregister r.entry with e | c
    · simp only [TaskQueue.unregister, hcrontab]
      exact refl P s
    · -- the entry goes with the registration, or neither does
      rw [Daemon.unregister_eq_of_ok hcrontab]
      unfold Crontab.unregister at hcrontab
      split at hcrontab
      · obtain rfl := Except.ok.inj hcrontab
        constructor
        case fresh => exact Nat.le_refl _
        case rows =>
          intro id' r' hr'
          rw [Registrations.lookup_erase] at hr'
          split at hr'
          · cases hr'
          · exact .inl hr'
        case ids =>
          intro n hn
          exact .inl ((List.filter_sublist.map Prod.fst).subset hn)
        case entries =>
          intro n e he
          exact .inl (List.mem_filter.mp he).1
      · cases hcrontab

/-- A registration and its entry are new, and the entry fires later. -/
theorem register (s : Scheduler Daemon) (now : Instant) (j : Job) :
    Onward (now < ·) s (s.register now j).2 := by
  unfold Scheduler.register
  split
  · exact refl _ s
  · rename_i options _
    -- the crontab refuses the expression, or it has one entry more
    rcases hcrontab : s.queue.crontab.register now j.cron (Task.ofJob j) options with e | ⟨n, c⟩
    · rw [Daemon.register_eq_of_error hcrontab]
      exact refl _ s
    · rw [Daemon.register_eq_of_ok hcrontab]
      obtain ⟨rfl, hfresh, e, hentries, hlater⟩ := later_of_register hcrontab
      constructor
      case fresh =>
        show s.queue.crontab.fresh ≤ c.fresh
        rw [hfresh]
        exact Nat.le_succ _
      case rows =>
        intro id r hr
        rw [Registrations.lookup_insert] at hr
        split at hr
        · obtain rfl := Option.some.inj hr
          exact .inr (Nat.le_refl _)
        · exact .inl hr
      case ids =>
        intro n hn
        have hn : n ∈ c.entries.map Prod.fst := hn
        rw [hentries, List.map_append] at hn
        rcases List.mem_append.mp hn with hn | hn
        · exact .inl hn
        · obtain rfl := List.mem_singleton.mp hn
          exact .inr (Nat.le_refl _)
      case entries =>
        intro n e' he
        have he : (n, e') ∈ c.entries := he
        rw [hentries] at he
        rcases List.mem_append.mp he with he | he
        · exact .inl he
        · obtain ⟨-, rfl⟩ := Prod.mk.inj (List.mem_singleton.mp he)
          exact .inr hlater

/-! #### Operations -/

theorem remove (P : Instant → Prop) (s : Scheduler Daemon) (id : String) :
    Onward P s (s.remove id).2 := by
  have hremoved := unregister P s id
  unfold Scheduler.remove
  generalize s.unregister id = result at hremoved
  obtain ⟨e | ⟨⟩, s'⟩ := result
  · exact hremoved
  · exact hremoved

theorem add (s : Scheduler Daemon) (now : Instant) (j : Job) :
    Onward (now < ·) s (s.add now j).2 := by
  have hremoved := remove (now < ·) s j.id
  unfold Scheduler.add
  generalize s.remove j.id = result at hremoved
  obtain ⟨e | ⟨⟩, s'⟩ := result
  · exact hremoved
  · -- the job is removed first, and its registration may still be refused
    have hadded := hremoved.trans (register s' now j)
    by_cases hschedulable : j.schedulable = true
    · simp only [hschedulable, if_true]
      generalize s'.register now j = result at hadded
      obtain ⟨e | ⟨⟩, s''⟩ := result
      · exact hadded
      · exact hadded
    · simp only [hschedulable]
      exact hremoved

theorem unregisterAll (P : Instant → Prop) (s : Scheduler Daemon) (ids : List String) :
    Onward P s (s.unregisterAll ids).2 := by
  induction ids generalizing s with
  | nil => exact refl P s
  | cons id ids ih =>
    have hremoved := unregister P s id
    unfold Scheduler.unregisterAll
    generalize s.unregister id = result at hremoved
    obtain ⟨e | ⟨⟩, s'⟩ := result
    · exact hremoved.trans (ih s')
    · exact hremoved.trans (ih s')

theorem registerAll (s : Scheduler Daemon) (now : Instant) (failed : List String)
    (jobs : List Job) (report : SyncReport) :
    Onward (now < ·) s (registerAll now failed s jobs report).2 := by
  induction jobs generalizing s report with
  | nil => exact refl _ s
  | cons j jobs ih =>
    by_cases hskip : leavesOut failed j = true
    · rw [registerAll_cons_of_leavesOut hskip]
      exact ih s _
    · rw [registerAll_cons_of_tries hskip]
      exact (register s now j).trans (ih _ _)

theorem pass (s : Scheduler Daemon) (wall : Instant) (read : Except SchedulerError (List Job)) :
    Onward (wall < ·) s (s.pass wall read) := by
  rcases read with e | jobs
  · exact refl _ s
  · show Onward (wall < ·) s (s.sync wall jobs).2
    rw [sync_eq]
    exact (unregisterAll _ s _).trans (registerAll _ wall _ _ _)

/-- Firing moves entries on, to later instants. -/
theorem fireDue (s : Scheduler Daemon) (now : Instant) :
    Onward (now < ·) s ⟨s.table, (s.queue.fireDue now).2⟩ := by
  have hentries : (s.queue.fireDue now).2.crontab.entries = _ :=
    s.queue.crontab.entries_fireDue now s.queue.channel
  constructor
  case fresh => exact Nat.le_refl _
  case rows => exact fun id r hr => .inl hr
  case ids =>
    intro n hn
    dsimp only at hn
    rw [hentries, List.map_map] at hn
    exact .inl hn
  case entries =>
    intro n e he
    dsimp only at he
    rw [hentries] at he
    obtain ⟨⟨n', e'⟩, he', heq⟩ := List.mem_map.mp he
    obtain ⟨rfl, rfl⟩ := Prod.mk.inj heq
    dsimp only
    split
    · -- an entry that fires is moved on; the others wait for what they waited for
      exact .inr fun next hnext => Crontab.Entry.later_of_moveOn hnext
    · exact .inl he'

end Onward

/-! ### A source and its scheduler -/

/-- A source of jobs with the scheduler that reads it. -/
structure Desk (μ : Type) where
  source : μ
  scheduler : Scheduler Daemon

/-- What happens to a source and its scheduler.

* `edit`: the source is edited, in whatever way.
* `sync`: a pass that begins to read the source at an instant of the running clock.
* `fire`: the crontab fires what is due.
* `handle`: tasks are taken from the channel, or it is closed. -/
inductive Desk.Event (μ : Type)
  | edit (source : μ)
  | add (now : Instant) (j : Job)
  | remove (id : String)
  | sync (wall : Instant) (now timeout : Nat)
  | fire (now : Instant)
  | handle (channel : Channel)

namespace Desk

variable {μ : Type}

/-- The instant at which something happens, if the clock is read for it. -/
def Event.time? : Event μ → Option Instant
  | .add now _ | .sync now _ _ | .fire now => some now
  | _ => none

/-- Under a clock that does not go back, what comes after an event does not come before it. -/
theorem Event.le_of_mem_drop {events : List (Event μ)}
    (hclock : (events.filterMap Event.time?).Pairwise (· ≤ ·)) {i : Nat} {event later : Event μ}
    (hevent : events[i]? = some event) {now time : Instant} (hnow : event.time? = some now)
    (hlater : later ∈ events.drop (i + 1)) (htime : later.time? = some time) : now ≤ time := by
  obtain ⟨hi, hget⟩ := List.getElem?_eq_some_iff.mp hevent
  rw [← List.take_append_drop i events, List.drop_eq_getElem_cons hi, hget, List.filterMap_append,
    List.filterMap_cons_some hnow] at hclock
  have hafter := (List.pairwise_append.mp hclock).2.1
  exact List.rel_of_pairwise_cons hafter (List.mem_filterMap.mpr ⟨later, hlater, htime⟩)

/-- A source, and a scheduler that has registered nothing yet. -/
def start (source : μ) (channel : Channel) (period : Nat) : Desk μ :=
  ⟨source, Scheduler.fresh channel period⟩

/-- The crontab of a desk. -/
def crontab (d : Desk μ) : Crontab := d.scheduler.queue.crontab

/-- Whether a job holds a registration with an entry. -/
def Owns (d : Desk μ) (id : String) (n : EntryId) : Prop :=
  ∃ r, d.scheduler.table.lookup id = some r ∧ r.entry = n

/-! ### Registrations and entries -/

/-- What every event preserves: registrations and entries belong together. -/
def Sorted (d : Desk μ) : Prop := Booked (fun _ => True) d.scheduler.table d.crontab

/-- Whether no entry of a job waits for an occurrence, or for an earlier one. -/
def Past (d : Desk μ) (id : String) (o : Instant) : Prop :=
  ∀ n e, d.Owns id n → (n, e) ∈ d.crontab.entries → ∀ next, e.nextRun = some next → o < next

theorem sorted_start (source : μ) (channel : Channel) (period : Nat) :
    (start source channel period).Sorted :=
  .empty _

theorem Sorted.traced {d : Desk μ} (h : d.Sorted) : Sound (fun _ => True) d.scheduler.traced :=
  ⟨h, by simp⟩

/-- An act of the scheduler keeps registrations and entries together. -/
theorem Sorted.perform {d : Desk μ} (h : d.Sorted) (act : Act) (hact : act.Distinct) :
    ({ d with scheduler := d.scheduler.perform act } : Desk μ).Sorted := by
  have hids : ∀ a ∈ [act], a.Distinct := by simpa using hact
  have hrun := h.traced.run_traced (fun _ _ _ _ => trivial) hids
  exact hrun.booked

/-- A registration has an entry, and its id has been used up. -/
theorem Sorted.live {d : Desk μ} (h : d.Sorted) {id : String} {n : EntryId} (hn : d.Owns id n) :
    n ∈ d.crontab.entries.map Prod.fst ∧ n < d.crontab.fresh := by
  obtain ⟨r, hr, rfl⟩ := hn
  have hlive := Booked.live h (mem_of_lookup hr)
  exact ⟨hlive, h.fresh _ hlive⟩

/-- An entry stays that of its job as long as it is there. -/
theorem Sorted.owns_of_owns {d d' : Desk μ} (h : d.Sorted) (h' : d'.Sorted) {P : Instant → Prop}
    (hon : Onward P d.scheduler d'.scheduler) {id : String} {n : EntryId} (hn : d.Owns id n)
    (hlive : n ∈ d'.crontab.entries.map Prod.fst) : d'.Owns id n := by
  obtain ⟨id', r', hr', rfl⟩ := h'.owner hlive
  have hlookup' := h'.table.lookup_of_mem hr'
  rcases hon.rows id' r' hlookup' with hlookup | hnew
  · -- the entry had this registration before, and no other one
    obtain ⟨r, hr, hentry⟩ := hn
    have hsame := h.owner_unique (mem_of_lookup hlookup) (mem_of_lookup hr) hentry.symm
    obtain rfl := congrArg Prod.fst hsame
    exact ⟨r', hlookup', rfl⟩
  · exact absurd (h.live hn).2 (Nat.not_lt_of_le hnew)

/-- What comes later than an occurrence does not let it come back. -/
theorem Sorted.past_of_past {d d' : Desk μ} (h : d.Sorted) {id : String} {o : Instant}
    (hon : Onward (o < ·) d.scheduler d'.scheduler) (hpast : d.Past id o) : d'.Past id o := by
  intro n e hn he next hnext
  rcases hon.entries n e he with he | hlater
  · obtain ⟨r, hr, rfl⟩ := hn
    rcases hon.rows id r hr with hrow | hnew
    · exact hpast r.entry e ⟨r, hrow, rfl⟩ he next hnext
    · exact absurd (h.fresh _ (List.mem_map_of_mem he)) (Nat.not_lt_of_le hnew)
  · exact hlater next hnext

/-! ### Events -/

variable [JobSource μ]

/-- Whether no id comes twice in a source, as in every catalog (`Feed.nodup_ids_catalog`). -/
def Distinct (source : μ) : Prop := ((JobSource.feed source).jobs.map Job.id).Nodup

/-- Whether an edit leaves no id twice in the source. -/
def Event.Tidy : Event μ → Prop
  | .edit source => Distinct source
  | _ => True

/-- The desk after an event. -/
def step (d : Desk μ) : Event μ → Desk μ
  | .edit source => { d with source }
  | .add now j => { d with scheduler := (d.scheduler.add now j).2 }
  | .remove id => { d with scheduler := (d.scheduler.remove id).2 }
  | .sync wall now timeout =>
    { d with
      scheduler := d.scheduler.pass wall ((JobSource.feed d.source).read now timeout).2 }
  | .fire now =>
    { d with scheduler := ⟨d.scheduler.table, (d.scheduler.queue.fireDue now).2⟩ }
  | .handle channel =>
    { d with scheduler := ⟨d.scheduler.table, { d.scheduler.queue with channel }⟩ }

/-- The desk after some events. -/
def run (d : Desk μ) (events : List (Event μ)) : Desk μ := events.foldl step d

theorem run_append (d : Desk μ) (events later : List (Event μ)) :
    d.run (events ++ later) = (d.run events).run later :=
  List.foldl_append

/-- What an event adds fires later than the event. -/
theorem onward_step {P : Instant → Prop} (d : Desk μ) {event : Event μ}
    (hlater : ∀ now next, event.time? = some now → now < next → P next) :
    Onward P d.scheduler (d.step event).scheduler := by
  cases event with
  | edit source => exact .refl P d.scheduler
  | add now j => exact (Onward.add d.scheduler now j).mono fun next => hlater now next rfl
  | remove id => exact .remove P d.scheduler id
  | sync wall now timeout =>
    exact (Onward.pass d.scheduler wall _).mono fun next => hlater wall next rfl
  | fire now => exact (Onward.fireDue d.scheduler now).mono fun next => hlater now next rfl
  | handle channel =>
    have hsame := Onward.refl P d.scheduler
    exact ⟨hsame.fresh, hsame.rows, hsame.ids, hsame.entries⟩

theorem onward_run {P : Instant → Prop} (d : Desk μ) {events : List (Event μ)}
    (hlater : ∀ event ∈ events, ∀ now next, event.time? = some now → now < next → P next) :
    Onward P d.scheduler (d.run events).scheduler := by
  induction events generalizing d with
  | nil => exact .refl P d.scheduler
  | cons event events ih =>
    have hstep := d.onward_step (hlater event List.mem_cons_self)
    exact hstep.trans (ih _ fun e he => hlater e (List.mem_cons_of_mem _ he))

theorem Sorted.step {d : Desk μ} (h : d.Sorted) (hsource : Distinct d.source) (event : Event μ) :
    (d.step event).Sorted := by
  cases event with
  | edit source => exact h
  | add now j => exact h.perform (.add now j) trivial
  | remove id => exact h.perform (.remove id) trivial
  | sync wall now timeout =>
    exact h.perform (.sync wall (JobSource.feed d.source) now timeout) hsource
  | fire now => exact h.fireDue now d.scheduler.queue.channel
  | handle channel => exact h

theorem Sorted.run {d : Desk μ} (h : d.Sorted) (hsource : Distinct d.source)
    {events : List (Event μ)} (htidy : ∀ event ∈ events, event.Tidy) :
    (d.run events).Sorted ∧ Distinct (d.run events).source := by
  induction events generalizing d with
  | nil => exact ⟨h, hsource⟩
  | cons event events ih =>
    have htidy' : ∀ e ∈ events, e.Tidy := fun e he => htidy e (List.mem_cons_of_mem _ he)
    refine ih (h.step hsource event) ?_ htidy'
    cases event with
    | edit source => exact htidy _ List.mem_cons_self
    | add now j => exact hsource
    | remove id => exact hsource
    | sync wall now timeout => exact hsource
    | fire now => exact hsource
    | handle channel => exact hsource

/-! ### Occurrences -/

/-- Whether the event at `i` makes an entry of a job due, because it waits for an occurrence.  An
entry is of a job if the job has at some time held a registration with it. -/
structure Fires (d : Desk μ) (events : List (Event μ)) (i : Nat) (id : String) (n : EntryId)
    (o : Instant) : Prop where
  made : ∃ k ≤ i, (d.run (events.take k)).Owns id n
  due : ∃ now e, events[i]? = some (.fire now) ∧
    (d.run (events.take i)).crontab.entries.lookup n = some e ∧
      e.nextRun = some o ∧ e.isDue now = true

/-- What happens between two events. -/
theorem run_take (d : Desk μ) (events : List (Event μ)) {i j : Nat} (hij : i ≤ j) :
    d.run (events.take j) = (d.run (events.take i)).run ((events.take j).drop i) := by
  rw [← run_append]
  congr 1
  have htake : (events.take j).take i = events.take i := by rw [List.take_take, Nat.min_eq_left hij]
  rw [← htake, List.take_append_drop]

/-- After a look no entry waits for an occurrence that has made an entry of its job due. -/
theorem Sorted.past_fire {d : Desk μ} (h : d.Sorted) {id : String} {n : EntryId} (hn : d.Owns id n)
    {e : Crontab.Entry} (he : d.crontab.entries.lookup n = some e) {now o : Instant}
    (ho : e.nextRun = some o) (hdue : e.isDue now = true) : (d.step (.fire now)).Past id o := by
  have hle : o ≤ now := by simpa [Crontab.Entry.isDue, ho] using hdue
  intro n' e' hn' he' next hnext
  -- the job has one entry
  obtain ⟨r, hr, rfl⟩ := hn
  obtain ⟨r', hr', rfl⟩ := hn'
  obtain rfl : r = r' := Option.some.inj (hr.symm.trans hr')
  have hentries : (d.step (.fire now)).crontab.entries = _ :=
    d.crontab.entries_fireDue now d.scheduler.queue.channel
  rw [hentries] at he'
  obtain ⟨⟨n'', e''⟩, he'', heq⟩ := List.mem_map.mp he'
  obtain ⟨rfl, rfl⟩ := Prod.mk.inj heq
  obtain rfl : e'' = e := Option.some.inj ((h.entries.lookup_of_mem he'').symm.trans he)
  dsimp only at hnext
  rw [if_pos hdue] at hnext
  exact lt_of_le_of_lt hle (Crontab.Entry.later_of_moveOn hnext)

/-- An entry that is made due is that of a registration. -/
theorem Fires.owns {d : Desk μ} (h : d.Sorted) (hsource : Distinct d.source)
    {events : List (Event μ)} (htidy : ∀ event ∈ events, event.Tidy) {i : Nat} {id : String}
    {n : EntryId} {o : Instant} (hfires : Fires d events i id n o) :
    (d.run (events.take i)).Owns id n := by
  obtain ⟨⟨k, hk, hn⟩, now, e, -, he, -, -⟩ := hfires
  have hsorted (m : Nat) : (d.run (events.take m)).Sorted :=
    (h.run hsource fun event hevent => htidy event (List.mem_of_mem_take hevent)).1
  have hon : Onward (fun _ => True) (d.run (events.take k)).scheduler
      (d.run (events.take i)).scheduler := by
    rw [d.run_take events hk]
    exact onward_run _ fun _ _ _ _ _ _ => trivial
  exact (hsorted k).owns_of_owns (hsorted i) hon hn (List.mem_map_of_mem (mem_of_lookup he))

/-- Under a clock that does not go back, an occurrence that has made an entry of a job due makes no
entry of it due later on. -/
theorem Fires.not_later {d : Desk μ} (h : d.Sorted) (hsource : Distinct d.source)
    {events : List (Event μ)} (htidy : ∀ event ∈ events, event.Tidy)
    (hclock : (events.filterMap Event.time?).Pairwise (· ≤ ·)) {i j : Nat} {id : String}
    {n n' : EntryId} {o : Instant} (hi : Fires d events i id n o) (hj : Fires d events j id n' o) :
    ¬ i < j := by
  intro hij
  have hn := hi.owns h hsource htidy
  have hn' := hj.owns h hsource htidy
  obtain ⟨-, now, e, hevent, he, ho, hdue⟩ := hi
  obtain ⟨-, now', e', -, he', ho', -⟩ := hj
  have hsorted (m : Nat) : (d.run (events.take m)).Sorted :=
    (h.run hsource fun event hevent => htidy event (List.mem_of_mem_take hevent)).1
  have hstep : d.run (events.take (i + 1)) = (d.run (events.take i)).step (.fire now) := by
    rw [List.take_add_one, hevent, run_append]
    rfl
  have hpast : (d.run (events.take (i + 1))).Past id o := by
    rw [hstep]
    exact (hsorted i).past_fire hn he ho hdue
  -- all that comes after the first look comes after the occurrence
  have hon : Onward (o < ·) (d.run (events.take (i + 1))).scheduler
      (d.run (events.take j)).scheduler := by
    rw [d.run_take events (Nat.succ_le_of_lt hij)]
    refine onward_run _ ?_
    intro event hafter time next htime hnext
    have hle : o ≤ now := by simpa [Crontab.Entry.isDue, ho] using hdue
    have hmem : event ∈ events.drop (i + 1) :=
      ((List.take_sublist j events).drop (i + 1)).subset hafter
    have hnow : now ≤ time := Event.le_of_mem_drop hclock hevent rfl hmem htime
    exact lt_of_le_of_lt (le_trans hle hnow) hnext
  have hlater := (hsorted (i + 1)).past_of_past hon hpast n' e' hn' (mem_of_lookup he') o ho'
  exact lt_irrefl o hlater

/-- Whatever happens to a source and its scheduler, under a clock that does not go back, an
occurrence makes entries of a job due at one look at most, and then only the one entry with which
the job is registered. -/
theorem occurrence_once (source : μ) (channel : Channel) (period : Nat) {events : List (Event μ)}
    (hsource : Distinct source) (htidy : ∀ event ∈ events, event.Tidy)
    (hclock : (events.filterMap Event.time?).Pairwise (· ≤ ·)) {i : Nat} {id : String}
    {n : EntryId} {o : Instant} (hi : Fires (start source channel period) events i id n o) :
    ((start source channel period).run (events.take i)).Owns id n ∧
      ∀ j n', Fires (start source channel period) events j id n' o → j = i ∧ n' = n := by
  have hsorted := sorted_start source channel period
  have hn := hi.owns hsorted hsource htidy
  refine ⟨hn, ?_⟩
  intro j n' hj
  -- neither of the two looks is before the other
  have hij := hi.not_later hsorted hsource htidy hclock hj
  have hji := hj.not_later hsorted hsource htidy hclock hi
  obtain rfl : j = i := Nat.le_antisymm (Nat.not_lt.mp hij) (Nat.not_lt.mp hji)
  obtain ⟨r, hr, rfl⟩ := hn
  obtain ⟨r', hr', rfl⟩ := hj.owns hsorted hsource htidy
  exact ⟨rfl, congrArg Registration.entry (Option.some.inj (hr'.symm.trans hr))⟩

/-- A catalog of one job. -/
def only (j : Job) : Catalog := ⟨some [.ofJob j]⟩

/-- A job is registered, edited and registered anew; then the crontab is looked through twice. -/
def anew : List (Event Catalog) :=
  [.sync ⟨30, 0⟩ 0 60000, .edit (only (.new "a" "mail" "* * * * *" ⟨40, 0⟩)),
    .sync ⟨50, 0⟩ 20000 60000, .fire ⟨60, 0⟩, .fire ⟨61, 0⟩]

theorem occurrence_once_anew :
    let source := only (.new "a" "mail" "*/5 * * * *" ⟨20, 0⟩)
    let desk := start source ⟨16, [], true, false⟩ 1000
    Distinct source ∧ (∀ event ∈ anew, event.Tidy) ∧
      (anew.filterMap Event.time?).Pairwise (· ≤ ·) ∧ Fires desk anew 3 "a" 1 ⟨60, 0⟩ ∧
      (desk.run (anew.take 3)).Owns "a" 1 ∧
      ∀ j n', Fires desk anew j "a" n' ⟨60, 0⟩ → j = 3 ∧ n' = 1 := by
  intro source desk
  have hsource : Distinct source := by
    unfold Distinct
    decide +kernel
  have hedited : Distinct (only (.new "a" "mail" "* * * * *" ⟨40, 0⟩)) := by
    unfold Distinct
    decide +kernel
  have htidy : ∀ event ∈ anew, event.Tidy := by simpa [anew, Event.Tidy] using hedited
  have hclock : (anew.filterMap Event.time?).Pairwise (· ≤ ·) := by decide +kernel
  have howns : (desk.run (anew.take 3)).Owns "a" 1 := ⟨⟨1, ⟨40, 0⟩⟩, by decide +kernel, rfl⟩
  have hdue : ((desk.run (anew.take 3)).crontab.entries.lookup 1).map
      (fun e => (e.nextRun, e.isDue ⟨60, 0⟩)) = some (some ⟨60, 0⟩, true) := by decide +kernel
  obtain ⟨e, he, hfields⟩ := Option.map_eq_some_iff.mp hdue
  obtain ⟨ho, hdue⟩ := Prod.mk.inj hfields
  have hfires : Fires desk anew 3 "a" 1 ⟨60, 0⟩ :=
    ⟨⟨3, Nat.le_refl 3, howns⟩, ⟨60, 0⟩, e, rfl, he, ho, hdue⟩
  exact ⟨hsource, htidy, hclock, hfires,
    occurrence_once source ⟨16, [], true, false⟩ 1000 hsource htidy hclock hfires⟩

end Desk
end Scheduler
end Courier

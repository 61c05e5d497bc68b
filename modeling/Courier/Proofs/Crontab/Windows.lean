import Courier.Proofs.Cron.Occurrence
import Courier.Proofs.Crontab.Locks
import Courier.Proofs.Scheduling.Booking
import Courier.Proofs.Task.LastOption

/-!
The windows between looks at a crontab.

An entry keeps the time of its next firing, which is worked out anew from the time of the look at
which it fires, and not from the occurrence that made it due.  Under a clock that does not go back
that time stays the first occurrence after the last look (`Entry.isNext_run`), so at every look the
entry is due just if its schedule has come up since the last one.  Whatever the clock does, the time
only grows, and it grows at every firing (`Entry.grows_run`).

An entry changes at looks only (`Entry.passed`), so it is followed apart from the crontab.  What a
crontab keeps in every run is that no two entries have one id and that ids are given only once
(`Crontab.Tidy`).  With this the entry that a registration adds is found under its id as long as it
is not removed, and it is the one that has passed all events (`Carries`).

A look fires an entry at most once, in whatever order it takes the due ones (`length_firingsOf`).
The tasks go to the channel one after the other (`Sends`): each is dropped as a duplicate, or sent
if there is room, or refused.

Main statement: `Daemon.follows_of_register`, with one field of `Daemon.Follows` for each part.  The
part about occurrences asks for a clock that does not go back and stays in its range (`Regular`);
the others hold of all looks.
-/

namespace Courier

open Time

namespace Cron.Schedule

variable {s : Schedule}

namespace IsNext

variable {a now : Instant} {next : Option Instant}

/-- The first occurrence has come just if some occurrence has. -/
theorem reached_iff (h : s.IsNext a next) :
    (∃ b, next = some b ∧ b ≤ now) ↔ ∃ o, s.Occurs o ∧ a < o ∧ o ≤ now := by
  constructor
  · rintro ⟨b, hb, hle⟩
    obtain ⟨hoccurs, hlt⟩ := h.occurs b hb
    exact ⟨b, hoccurs, hlt, hle⟩
  · rintro ⟨o, ho, hlt, hle⟩
    obtain ⟨b, hb, hbo⟩ := h.least o ho hlt
    exact ⟨b, hb, le_trans hbo hle⟩

/-- As long as it has not come, the first occurrence stays the first one. -/
theorem advance (h : s.IsNext a next) (hle : a ≤ now)
    (hnot : ¬∃ b, next = some b ∧ b ≤ now) : s.IsNext now next where
  occurs b hb := ⟨(h.occurs b hb).1, not_le.mp fun hbnow => hnot ⟨b, hb, hbnow⟩⟩
  least o ho hlt := h.least o ho (lt_of_le_of_lt hle hlt)

end IsNext

end Cron.Schedule

namespace Crontab

/-! ### One entry -/

namespace Entry

theorem isDue_iff {e : Entry} {now : Instant} :
    e.isDue now = true ↔ ∃ b, e.nextRun = some b ∧ b ≤ now := by
  unfold isDue
  rcases e.nextRun with - | next <;> simp

/-- What an event makes of an entry that stays. -/
def passed (e : Entry) : Daemon.Event → Entry
  | .look l => if e.isDue l.time then e.moveOn l.time else e
  | _ => e

/-- What a run makes of an entry that stays. -/
def run (e : Entry) (events : List Daemon.Event) : Entry := events.foldl passed e

theorem passed_look_of_due {e : Entry} {l : Look} (h : e.isDue l.time = true) :
    e.passed (.look l) = e.moveOn l.time :=
  if_pos h

theorem passed_look_of_not_due {e : Entry} {l : Look} (h : ¬e.isDue l.time = true) :
    e.passed (.look l) = e :=
  if_neg h

theorem passed_of_time? {e : Entry} {event : Daemon.Event} (h : event.time? = none) :
    e.passed event = e := by
  cases event with
  | look l => cases h
  | _ => rfl

theorem schedule_passed (e : Entry) (event : Daemon.Event) :
    (e.passed event).schedule = e.schedule := by
  rcases htime : event.time? with - | now
  · rw [passed_of_time? htime]
  · obtain ⟨l, rfl, -⟩ := Daemon.Event.eq_look_of_time? htime
    rw [passed]
    split <;> rfl

theorem schedule_run (events : List Daemon.Event) : ∀ e : Entry,
    (e.run events).schedule = e.schedule := by
  induction events with
  | nil => exact fun _ => rfl
  | cons event events ih => exact fun e => (ih (e.passed event)).trans (e.schedule_passed event)

/-! #### Firing times only grow -/

/-- Whether one time of a next firing is not before another one. -/
def Grows (next next' : Option Instant) : Prop :=
  ∀ b', next' = some b' → ∃ b, next = some b ∧ b ≤ b'

theorem Grows.refl (next : Option Instant) : Grows next next := fun b hb => ⟨b, hb, le_refl b⟩

theorem Grows.trans {a b c : Option Instant} (hab : Grows a b) (hbc : Grows b c) : Grows a c := by
  intro z hz
  obtain ⟨y, hy, hyz⟩ := hbc z hz
  obtain ⟨x, hx, hxy⟩ := hab y hy
  exact ⟨x, hx, le_trans hxy hyz⟩

theorem grows_passed (e : Entry) (event : Daemon.Event) :
    Grows e.nextRun (e.passed event).nextRun := by
  rcases htime : event.time? with - | now
  · rw [passed_of_time? htime]
    exact .refl _
  · obtain ⟨l, rfl, -⟩ := Daemon.Event.eq_look_of_time? htime
    by_cases hdue : e.isDue l.time = true
    · rw [passed_look_of_due hdue]
      obtain ⟨b, hb, hle⟩ := isDue_iff.mp hdue
      exact fun b' hb' => ⟨b, hb, le_of_lt (lt_of_le_of_lt hle (Cron.Schedule.lt_of_next hb'))⟩
    · rw [passed_look_of_not_due hdue]
      exact .refl _

/-- Whatever the clock does, the time of the next firing does not go back. -/
theorem grows_run (events : List Daemon.Event) : ∀ e : Entry,
    Grows e.nextRun (e.run events).nextRun := by
  induction events with
  | nil => exact fun e => .refl _
  | cons event events ih => exact fun e => (e.grows_passed event).trans (ih (e.passed event))

end Entry

namespace Daemon

/-- The time of the last look of a run, or of the beginning. -/
def lastLook (t₀ : Instant) (events : List Event) : Instant :=
  events.foldl (fun t e => e.time?.getD t) t₀

/-- The times of the beginning, of all looks of a run and of one more. -/
def clock (t₀ : Instant) (events : List Event) : List Instant := t₀ :: events.filterMap Event.time?

end Daemon

open Daemon in
/-- Under a clock that does not go back, an entry waits for the first occurrence after the last
look. -/
theorem Entry.isNext_run {s : Cron.Schedule} (hs : s.Proper) (events : List Event) :
    ∀ {e : Entry} {t₀ : Instant}, e.schedule = s → (clock t₀ events).Pairwise (· ≤ ·) →
      (∀ t ∈ clock t₀ events, t.Regular) → 0 ≤ (t₀.plus nanosPerSecond).date.year →
        s.IsNext t₀ e.nextRun → s.IsNext (lastLook t₀ events) (e.run events).nextRun := by
  induction events with
  | nil => exact fun _ _ _ _ h => h
  | cons event events ih =>
    intro e t₀ he hclock hregular hyear hnext
    have he' : (e.passed event).schedule = s := (e.schedule_passed event).trans he
    rcases htime : event.time? with - | now
    · -- nothing but looks counts
      have hskip : clock t₀ (event :: events) = clock t₀ events := by
        rw [clock, clock, List.filterMap_cons_none htime]
      have hlast : lastLook t₀ (event :: events) = lastLook t₀ events := by
        rw [lastLook, List.foldl_cons, htime]
        rfl
      rw [hskip] at hclock hregular
      rw [hlast]
      exact ih he' hclock hregular hyear ((passed_of_time? htime).symm ▸ hnext)
    · obtain ⟨l, rfl, rfl⟩ := Event.eq_look_of_time? htime
      obtain ⟨hle, hclock⟩ := List.pairwise_cons.mp hclock
      obtain ⟨ht₀, hregular⟩ := List.forall_mem_cons.mp hregular
      have hmem : l.time ∈ (Event.look l :: events).filterMap Event.time? := List.mem_cons_self
      have hnow : l.time.Regular := hregular l.time hmem
      have hyear' := Int.le_trans hyear (ht₀.year_le hnow (hle l.time hmem))
      refine ih he' hclock hregular hyear' ?_
      -- the entry fires, and waits for what comes after the look, or it goes on waiting
      by_cases hdue : e.isDue l.time = true
      · rw [passed_look_of_due hdue, moveOn, he]
        exact Cron.Schedule.isNext_next hs hnow hyear'
      · rw [passed_look_of_not_due hdue]
        exact hnext.advance (hle l.time hmem) (mt isDue_iff.mpr hdue)

/-! ### All entries -/

/-- Whether every id stands for one entry, and new ones are not in use. -/
structure Tidy (c : Crontab) : Prop where
  keyed : Keyed c.entries
  fresh : ∀ n ∈ c.entries.map Prod.fst, n < c.fresh

theorem lookup_map_values {α β : Type} (f : α → β) (n : EntryId) (t : List (EntryId × α)) :
    (t.map fun p => (p.1, f p.2)).lookup n = (t.lookup n).map f := by
  induction t with
  | nil => rfl
  | cons p t ih =>
    rw [List.map_cons, List.lookup_cons, List.lookup_cons, ih]
    split <;> rfl

namespace Daemon

theorem entries_step_look (d : Daemon) (l : Look) :
    (d.step (.look l)).2.crontab.entries =
      d.crontab.entries.map fun p => (p.1, p.2.passed (.look l)) :=
  d.crontab.entries_fireDue l.time d.channel

/-- A registration adds an entry under a fresh id, or it changes nothing. -/
theorem crontab_step_register (d : Daemon) (now : Instant) (expr : String) (task : Task)
    (options : List TaskOption) :
    (d.step (.register now expr task options)).2.crontab = d.crontab ∨
      ∃ e, (d.step (.register now expr task options)).2.crontab =
        { d.crontab with
          entries := d.crontab.entries ++ [(d.crontab.fresh, e)]
          fresh := d.crontab.fresh + 1 } := by
  rcases d.crontab.register_cases now expr task options with
    ⟨error, hregister, -⟩ | ⟨e, hregister, -⟩
  · exact .inl (by simp only [step, TaskQueue.register, hregister])
  · exact .inr ⟨e, by simp only [step, TaskQueue.register, hregister]⟩

/-- A removal drops an entry, or it changes nothing. -/
theorem crontab_step_unregister (d : Daemon) (n : EntryId) :
    (d.step (.unregister n)).2.crontab = d.crontab ∨
      (d.step (.unregister n)).2.crontab =
        { d.crontab with entries := d.crontab.entries.filter fun e => e.1 ≠ n } := by
  by_cases hthere : (d.crontab.entries.lookup n).isSome
  · exact .inr (by simp only [step, TaskQueue.unregister, Crontab.unregister, if_pos hthere])
  · exact .inl (by simp only [step, TaskQueue.unregister, Crontab.unregister, if_neg hthere])

theorem tidy_step {d : Daemon} (h : d.crontab.Tidy) (event : Event) :
    (d.step event).2.crontab.Tidy := by
  rcases event with ⟨now, expr, task, options⟩ | n | l | change
  case register =>
    rcases d.crontab_step_register now expr task options with heq | ⟨e, heq⟩
    · rwa [heq]
    · have hnew : d.crontab.entries.lookup d.crontab.fresh = none :=
        lookup_eq_none_iff_not_mem_keys.mpr fun hmem => Nat.lt_irrefl _ (h.fresh _ hmem)
      rw [heq]
      refine ⟨h.keyed.concat e hnew, fun n hn => ?_⟩
      simp only [List.map_append, List.map_cons, List.map_nil, List.mem_append,
        List.mem_singleton] at hn
      -- the new id is above all that were given
      rcases hn with hn | rfl
      · exact Nat.lt_succ_of_lt (h.fresh n hn)
      · exact Nat.lt_succ_self _
  case unregister =>
    rcases d.crontab_step_unregister n with heq | heq
    · rwa [heq]
    · rw [heq]
      refine ⟨h.keyed.filter _, fun k hk => h.fresh k ?_⟩
      exact (List.filter_sublist.map Prod.fst).subset hk
  case look =>
    have hkeys : (d.step (.look l)).2.crontab.entries.map Prod.fst =
        d.crontab.entries.map Prod.fst := by
      rw [entries_step_look, List.map_map]
      rfl
    refine ⟨?_, ?_⟩
    · rw [Keyed, hkeys]
      exact h.keyed
    · rw [hkeys]
      exact h.fresh
  case handle => exact h

/-- An entry passes every event but its removal. -/
theorem lookup_step {d : Daemon} {n : EntryId} (hn : n < d.crontab.fresh) {event : Event}
    (hevent : event ≠ .unregister n) :
    (d.step event).2.crontab.entries.lookup n =
        (d.crontab.entries.lookup n).map (·.passed event) ∧
      n < (d.step event).2.crontab.fresh := by
  have hsame : (d.crontab.entries.lookup n).map id = d.crontab.entries.lookup n :=
    congrFun Option.map_id _
  rcases event with ⟨now, expr, task, options⟩ | k | l | change
  case register =>
    rcases d.crontab_step_register now expr task options with heq | ⟨e, heq⟩
    · rw [heq]
      exact ⟨hsame.symm, hn⟩
    · -- the new entry has an id of its own
      have hne : (n == d.crontab.fresh) = false := by simpa using Nat.ne_of_lt hn
      rw [heq]
      refine ⟨?_, Nat.lt_succ_of_lt hn⟩
      rw [List.lookup_append, List.lookup_cons, hne]
      simp only [List.lookup_nil, Option.or_none]
      exact hsame.symm
  case unregister =>
    have hne : k ≠ n := fun heq => hevent (heq ▸ rfl)
    rcases d.crontab_step_unregister k with heq | heq
    · rw [heq]
      exact ⟨hsame.symm, hn⟩
    · rw [heq]
      refine ⟨?_, hn⟩
      -- the entry that is removed is another one
      rw [lookup_filter_key fun x => x ≠ k, if_pos (by simpa using hne.symm)]
      exact hsame.symm
  case look =>
    refine ⟨?_, hn⟩
    rw [entries_step_look]
    exact lookup_map_values (fun e : Entry => e.passed (.look l)) n _
  case handle => exact ⟨hsame.symm, hn⟩

theorem tidy_after (events : List Event) : ∀ {d : Daemon}, d.crontab.Tidy →
    (d.after events).crontab.Tidy := by
  induction events with
  | nil => exact fun h => h
  | cons event events ih => exact fun h => ih (tidy_step h event)

/-- Whether a daemon in order holds an entry, under an id that will not be given again. -/
structure Carries (d : Daemon) (n : EntryId) (e : Entry) : Prop where
  tidy : d.crontab.Tidy
  fresh : n < d.crontab.fresh
  lookup : d.crontab.entries.lookup n = some e

namespace Carries

variable {d : Daemon} {n : EntryId} {e : Entry}

theorem nextRun?_eq (h : d.Carries n e) : d.crontab.nextRun? n = e.nextRun := by
  rw [nextRun?, h.lookup]
  rfl

theorem step (h : d.Carries n e) {event : Event} (hevent : event ≠ .unregister n) :
    (d.step event).2.Carries n (e.passed event) := by
  obtain ⟨hlookup, hfresh⟩ := lookup_step h.fresh hevent
  exact ⟨tidy_step h.tidy event, hfresh, by rw [hlookup, h.lookup, Option.map_some]⟩

/-- An entry that is not removed goes through the whole run. -/
theorem after (events : List Event) : ∀ {d : Daemon} {e : Entry}, d.Carries n e →
    (∀ event ∈ events, event ≠ .unregister n) → (d.after events).Carries n (e.run events) := by
  induction events with
  | nil => exact fun h _ => h
  | cons event events ih =>
    intro d e h hevents
    obtain ⟨hevent, hevents⟩ := List.forall_mem_cons.mp hevents
    exact ih (h.step hevent) hevents

end Carries

end Daemon

/-! ### Firings of a look -/

/-- The tasks of the firings of a look are those that were given to it. -/
theorem map_fireAmid (now : Instant) (fired : List (QueuedTask × Option Nat)) :
    ∀ (meanwhile : Nat → Channel → Channel) (locks : List (String × Instant)) (channel : Channel),
      (fireAmid now meanwhile fired locks channel).1.map (fun f => (f.task, f.unique)) = fired := by
  induction fired with
  | nil => exact fun _ _ _ => rfl
  | cons x rest ih =>
    intro meanwhile locks channel
    rw [fireAmid, List.map_cons]
    dsimp only
    rw [ih]

/-- Whether a channel takes a task. -/
def HasRoom (c : Channel) : Prop := c.attended ∧ ¬c.closed ∧ c.tasks.length < c.capacity

theorem send?_of_hasRoom {c : Channel} (h : HasRoom c) (t : QueuedTask) :
    c.send? t = some { c with tasks := c.tasks ++ [t] } := by
  obtain ⟨hattended, hopen, hroom⟩ := h
  exact if_pos ⟨hattended, by simpa using hopen, hroom⟩

theorem send?_of_not_hasRoom {c : Channel} (h : ¬HasRoom c) (t : QueuedTask) :
    c.send? t = none := by
  refine if_neg fun hsend => h ?_
  obtain ⟨hattended, hopen, hroom⟩ := hsend
  exact ⟨hattended, by simpa using hopen, hroom⟩

/-- What the fate of a firing says about the channel that it meets, and about the channel
afterwards. -/
def Firing.Meets (f : Firing) (c c' : Channel) : Prop :=
  match f.fate with
  | .sent => HasRoom c ∧ c' = { c with tasks := c.tasks ++ [f.task] }
  | .refused => ¬HasRoom c ∧ c' = c
  | .duplicate => f.unique ≠ none ∧ c' = c

/-- How firings lead from one channel to another, when something may happen to it before each. -/
inductive Sends : (meanwhile : Nat → Channel → Channel) → List Firing → Channel → Channel → Prop
  | nil {meanwhile : Nat → Channel → Channel} (c : Channel) : Sends meanwhile [] c c
  | cons {meanwhile : Nat → Channel → Channel} {f : Firing} {rest : List Firing}
      {c c' c'' : Channel} (first : f.Meets (meanwhile 0 c) c')
      (others : Sends (fun i => meanwhile (i + 1)) rest c' c'') : Sends meanwhile (f :: rest) c c''

theorem meets_resolve (now : Instant) (locks : List (String × Instant)) (channel : Channel)
    (fired : QueuedTask × Option Nat) :
    Firing.Meets ⟨fired.1, fired.2, now, (resolve now locks channel fired).1⟩ channel
      (resolve now locks channel fired).2.2 := by
  obtain ⟨task, unique⟩ := fired
  -- without a lock to take, or with one that is free, the channel decides
  have hfree : ∀ locks',
      (∀ c, channel.send? task = some c →
        resolve now locks channel (task, unique) = (.sent, locks', c)) →
      (channel.send? task = none →
        resolve now locks channel (task, unique) = (.refused, locks', channel)) →
      Firing.Meets ⟨task, unique, now, (resolve now locks channel (task, unique)).1⟩ channel
        (resolve now locks channel (task, unique)).2.2 := by
    intro locks' hsent hrefused
    by_cases hroom : HasRoom channel
    · rw [hsent _ (send?_of_hasRoom hroom task)]
      exact ⟨hroom, rfl⟩
    · rw [hrefused (send?_of_not_hasRoom hroom task)]
      exact ⟨hroom, rfl⟩
  rcases unique with - | seconds
  · exact hfree locks (fun c hc => by simp [resolve, hc]) fun hc => by simp [resolve, hc]
  · rcases hclaim : claim locks now task seconds with ⟨free, locks'⟩
    -- a lock that is held makes a duplicate, and the channel stays as it is
    rcases free with - | -
    · have heq : resolve now locks channel (task, some seconds) =
          (.duplicate, locks', channel) := by
        simp [resolve, hclaim]
      rw [heq]
      exact ⟨by simp, rfl⟩
    · exact hfree locks' (fun c hc => by simp [resolve, hclaim, hc])
        fun hc => by simp [resolve, hclaim, hc]

theorem sends_fireAmid (now : Instant) (fired : List (QueuedTask × Option Nat)) :
    ∀ (meanwhile : Nat → Channel → Channel) (locks : List (String × Instant)) (channel : Channel),
      Sends meanwhile (fireAmid now meanwhile fired locks channel).1 channel
        (fireAmid now meanwhile fired locks channel).2.2 := by
  induction fired with
  | nil => exact fun _ _ channel => .nil channel
  | cons x rest ih =>
    intro meanwhile locks channel
    exact .cons (meets_resolve now locks (meanwhile 0 channel) x) (ih _ _ _)

/-- The tasks that were sent. -/
def sentTasks (firings : List Firing) : List QueuedTask :=
  (firings.filter fun f => f.fate = .sent).map Firing.task

theorem length_sentTasks (firings : List Firing) :
    (sentTasks firings).length = sentCount firings := by
  rw [sentTasks, List.length_map, sentCount, List.countP_eq_length_filter]

/-- When nothing else happens to the channel, just what was sent is added to it. -/
theorem Sends.channel_eq {meanwhile : Nat → Channel → Channel} {firings : List Firing}
    {c c' : Channel} (h : Sends meanwhile firings c c') (hquiet : ∀ i c, meanwhile i c = c) :
    c' = { c with tasks := c.tasks ++ sentTasks firings } := by
  induction h with
  | nil c => simp [sentTasks]
  | @cons meanwhile f rest c c₁ c₂ first _ ih =>
    rw [ih fun i c => hquiet (i + 1) c]
    rw [hquiet, Firing.Meets] at first
    rcases hfate : f.fate with _ | _ | _ <;> rw [hfate] at first <;> obtain ⟨-, rfl⟩ := first <;>
      simp [sentTasks, hfate]

namespace Daemon

/-- The firings of one entry at a look. -/
def firingsOf (d : Daemon) (n : EntryId) (l : Look) : List Firing :=
  (d.step (.look l)).1.filter fun f => f.task.entry = n

/-- Whether an entry is there and its time has come. -/
def DueAt (d : Daemon) (n : EntryId) (now : Instant) : Prop :=
  ∃ b, d.crontab.nextRun? n = some b ∧ b ≤ now

theorem dueAt_iff {d : Daemon} {n : EntryId} {now : Instant} :
    d.DueAt n now ↔ ∃ e, d.crontab.entries.lookup n = some e ∧ e.isDue now = true := by
  unfold DueAt nextRun?
  rcases d.crontab.entries.lookup n with - | e
  · simp
  · simp [Entry.isDue_iff]

/-- An entry fires once at a look if it is due, and else not at all. -/
theorem length_firingsOf {d : Daemon} (h : d.crontab.Tidy) (n : EntryId) {l : Look}
    (horder : ∀ fired, (l.order fired).Perm fired) :
    (d.DueAt n l.time → (d.firingsOf n l).length = 1) ∧
      (¬d.DueAt n l.time → d.firingsOf n l = []) := by
  let p (x : QueuedTask × Option Nat) : Bool := x.1.entry = n
  -- the firings of an entry are counted by its id among the entries that are due
  have hcount : (d.firingsOf n l).length =
      ((d.crontab.entries.filter fun e => e.2.isDue l.time).map Prod.fst).count n := by
    have htasks : (d.firingsOf n l).length = (l.order (d.crontab.due l.time)).countP p := by
      rw [firingsOf, ← List.countP_eq_length_filter]
      refine Eq.trans ?_ (congrArg (List.countP p)
        (map_fireAmid l.time _ l.meanwhile d.crontab.locks d.channel))
      rw [List.countP_map]
      rfl
    rw [htasks, (horder _).countP_eq, due, List.countP_map, List.count, List.countP_map]
    refine List.countP_congr fun e _ => ?_
    simp [p]
  -- ids are not shared, so there is one that is due just if the entry is
  have hmem : n ∈ (d.crontab.entries.filter fun e => e.2.isDue l.time).map Prod.fst ↔
      d.DueAt n l.time := by
    rw [dueAt_iff]
    constructor
    · intro hn
      obtain ⟨⟨k, e⟩, he, rfl⟩ := List.mem_map.mp hn
      obtain ⟨he, hdue⟩ := List.mem_filter.mp he
      exact ⟨e, h.keyed.lookup_of_mem he, hdue⟩
    · rintro ⟨e, he, hdue⟩
      exact List.mem_map.mpr ⟨(n, e), List.mem_filter.mpr ⟨mem_of_lookup he, hdue⟩, rfl⟩
  have hnodup := h.keyed.filter fun e => e.2.isDue l.time
  constructor
  · intro hdue
    rw [hcount, List.count_eq_one_of_mem hnodup (hmem.mpr hdue)]
  · intro hdue
    have hzero := List.count_eq_zero_of_not_mem (mt hmem.mp hdue)
    exact List.eq_nil_of_length_eq_zero (hcount.trans hzero)

/-- Right after a look nothing is due at its time. -/
theorem due_step_look (d : Daemon) (l : Look) :
    (d.step (.look l)).2.crontab.due l.time = [] := by
  have hnone : ∀ p ∈ (d.step (.look l)).2.crontab.entries, ¬p.2.isDue l.time = true := by
    intro p hp
    rw [entries_step_look] at hp
    obtain ⟨⟨k, e⟩, -, rfl⟩ := List.mem_map.mp hp
    by_cases hdue : e.isDue l.time = true
    · rw [Entry.passed_look_of_due hdue, Entry.isDue_iff]
      rintro ⟨b, hb, hle⟩
      exact absurd hle (not_le.mpr (Cron.Schedule.lt_of_next hb))
    · rwa [Entry.passed_look_of_not_due hdue]
  rw [due, List.filter_eq_nil_iff.mpr hnone]
  rfl

/-- What a look does for an entry with a schedule, when the entry was added to a daemon at `t₀` and
`events` have happened since.

* `due_iff`: under a clock that does not go back, the entry is due just if its schedule has come up
  since the last look.
* `fires`: however often it has come up, it fires once.
* `sends`: all that was sent, and nothing else, is on the channel, task by task.
* `counted`: if nothing else happens meanwhile, the number that is reported is that of the tasks
  added.
* `moves`: whatever became of the task, the entry goes on to what comes after the look.
* `again`: a second look at the same time fires nothing, no entry at all.
* `grows`: whatever the clock does, the time at which the entry fires grows from firing to
  firing. -/
structure Follows (s : Cron.Schedule) (n : EntryId) (t₀ : Instant) (d : Daemon)
    (events : List Event) (l : Look) : Prop where
  due_iff : (clock t₀ (events ++ [.look l])).Pairwise (· ≤ ·) →
    (∀ t ∈ clock t₀ (events ++ [.look l]), t.Regular) →
      ((d.after events).DueAt n l.time ↔
        ∃ o, s.Occurs o ∧ lastLook t₀ events < o ∧ o ≤ l.time)
  fires : (d.after events).DueAt n l.time →
    ∃ f, (d.after events).firingsOf n l = [f] ∧ f.time = l.time
  rests : ¬(d.after events).DueAt n l.time → (d.after events).firingsOf n l = []
  sends : Sends l.meanwhile ((d.after events).step (.look l)).1 (d.after events).channel
    ((d.after events).step (.look l)).2.channel
  counted : let sent := sentTasks ((d.after events).step (.look { time := l.time })).1
    ((d.after events).fireDue l.time).1 = sent.length ∧
      ((d.after events).fireDue l.time).2.channel =
        { (d.after events).channel with tasks := (d.after events).channel.tasks ++ sent }
  moves : (d.after events).DueAt n l.time →
    ((d.after events).step (.look l)).2.crontab.nextRun? n = s.next l.time
  stays : ¬(d.after events).DueAt n l.time →
    ((d.after events).step (.look l)).2.crontab.nextRun? n = (d.after events).crontab.nextRun? n
  again : ∀ l' : Look, l'.time = l.time → (∀ fired, (l'.order fired).Perm fired) →
    (((d.after events).step (.look l)).2.step (.look l')).1 = []
  grows : ∀ (mid : List Event) (l' : Look), (∀ event ∈ mid, event ≠ .unregister n) →
    (d.after events).DueAt n l.time →
      (d.after (events ++ .look l :: mid)).DueAt n l'.time →
        ∃ b b', (d.after events).crontab.nextRun? n = some b ∧
          (d.after (events ++ .look l :: mid)).crontab.nextRun? n = some b' ∧ b < b'

/-- The entry that is added by a registration. -/
theorem carries_of_register {d d' : Daemon} (h : d.crontab.Tidy) {t₀ : Instant} {expr : String}
    {task : Task} {options : List TaskOption} {n : EntryId}
    (hregister : TaskQueue.register d t₀ expr task options = (.ok n, d')) :
    ∃ e : Entry, d'.Carries n e ∧ Cron.Schedule.parse expr = .ok e.schedule ∧
      e.nextRun = e.schedule.next t₀ ∧ (e.schedule.next t₀).isSome := by
  have hd' : (d.step (.register t₀ expr task options)).2 = d' := by simp only [step, hregister]
  have htidy : d'.crontab.Tidy := hd' ▸ tidy_step h _
  clear hd'
  simp only [TaskQueue.register, Crontab.register] at hregister
  rcases hparse : Cron.Schedule.parse expr with e | s <;> rw [hparse] at hregister
  · cases hregister
  · rcases hnext : s.next t₀ with - | next <;> simp only [hnext] at hregister
    · cases hregister
    · obtain ⟨hn, rfl⟩ := Prod.mk.inj hregister
      obtain rfl := Except.ok.inj hn
      have hlast := htidy.keyed.lookup_of_mem
        (List.mem_append_right _ (List.mem_singleton_self _))
      exact ⟨⟨s, task, options, some next⟩, ⟨htidy, Nat.lt_succ_self _, hlast⟩, rfl, hnext.symm,
        by simp [hnext]⟩

namespace Carries

variable {d : Daemon} {n : EntryId} {e : Entry} {l : Look}

theorem dueAt_iff (h : d.Carries n e) {now : Instant} :
    d.DueAt n now ↔ e.isDue now = true := by
  rw [DueAt, h.nextRun?_eq, Entry.isDue_iff]

/-- After a run of looks under a clock that does not go back, an entry is due if its schedule has
come up since the last of them. -/
theorem dueAt_iff_occurs (h : d.Carries n e) {t₀ : Instant} (hproper : e.schedule.Proper)
    (hyear : 0 ≤ (t₀.plus nanosPerSecond).date.year) (hnext : e.nextRun = e.schedule.next t₀)
    {events : List Event} (hevents : ∀ event ∈ events, event ≠ .unregister n)
    (hclock : (clock t₀ (events ++ [.look l])).Pairwise (· ≤ ·))
    (hregular : ∀ t ∈ clock t₀ (events ++ [.look l]), t.Regular) :
    (d.after events).DueAt n l.time ↔
      ∃ o, e.schedule.Occurs o ∧ lastLook t₀ events < o ∧ o ≤ l.time := by
  have hsplit : clock t₀ (events ++ [.look l]) = clock t₀ events ++ [l.time] := by
    simp [clock, Event.time?]
  rw [hsplit] at hclock hregular
  have hregular' : ∀ t ∈ clock t₀ events, t.Regular :=
    fun t ht => hregular t (List.mem_append_left _ ht)
  have hfirst : e.schedule.IsNext t₀ e.nextRun :=
    -- at the registration the entry waits for the first occurrence after it
    hnext ▸ Cron.Schedule.isNext_next hproper (hregular' t₀ List.mem_cons_self) hyear
  have hlast := Entry.isNext_run hproper events rfl (List.pairwise_append.mp hclock).1 hregular'
    hyear hfirst
  rw [(h.after events hevents).dueAt_iff, Entry.isDue_iff]
  exact hlast.reached_iff

/-- An entry that is due fires once. -/
theorem firingsOf_of_due (h : d.Carries n e) (horder : ∀ fired, (l.order fired).Perm fired)
    (hdue : d.DueAt n l.time) : ∃ f, d.firingsOf n l = [f] ∧ f.time = l.time := by
  obtain ⟨f, hf⟩ := List.length_eq_one_iff.mp ((length_firingsOf h.tidy n horder).1 hdue)
  have hmem : f ∈ d.firingsOf n l := hf ▸ List.mem_singleton_self f
  exact ⟨f, hf, time_of_mem_fireAmid _ f (List.mem_of_mem_filter hmem)⟩

theorem nextRun?_look (h : d.Carries n e) (l : Look) :
    (d.step (.look l)).2.crontab.nextRun? n = (e.passed (.look l)).nextRun := by
  have hkept : Event.look l ≠ .unregister n := nofun
  exact (h.step hkept).nextRun?_eq

/-- An entry that is due goes on to what comes after the look. -/
theorem nextRun?_of_due (h : d.Carries n e) (hdue : d.DueAt n l.time) :
    (d.step (.look l)).2.crontab.nextRun? n = e.schedule.next l.time := by
  rw [h.nextRun?_look, Entry.passed_look_of_due (h.dueAt_iff.mp hdue), Entry.moveOn]

theorem nextRun?_of_not_due (h : d.Carries n e) (hdue : ¬d.DueAt n l.time) :
    (d.step (.look l)).2.crontab.nextRun? n = d.crontab.nextRun? n := by
  rw [h.nextRun?_look, Entry.passed_look_of_not_due (mt h.dueAt_iff.mpr hdue), h.nextRun?_eq]

/-- An entry that has fired moved on beyond the look, and its time does not go back afterwards. -/
theorem lt_of_due (h : d.Carries n e) (hdue : d.DueAt n l.time) {mid : List Event}
    (hmid : ∀ event ∈ mid, event ≠ .unregister n) {b b' : Instant}
    (hb : d.crontab.nextRun? n = some b)
    (hb' : (d.after (.look l :: mid)).crontab.nextRun? n = some b') : b < b' := by
  have hlook : (d.step (.look l)).2.Carries n (e.passed (.look l)) := h.step nofun
  have hrun : ((e.passed (.look l)).run mid).nextRun = some b' :=
    (hlook.after mid hmid).nextRun?_eq.symm.trans hb'
  obtain ⟨c, hc, hcb⟩ := Entry.grows_run mid _ b' hrun
  rw [Entry.passed_look_of_due (h.dueAt_iff.mp hdue)] at hc
  have hlt : l.time < c := Cron.Schedule.lt_of_next hc
  obtain ⟨b₀, hb₀, hle⟩ := hdue
  obtain rfl := Option.some.inj (hb₀.symm.trans hb)
  exact lt_of_le_of_lt hle (lt_of_lt_of_le hlt hcb)

end Carries

/-- What is reported is the number of tasks that are added, if nothing else happens meanwhile. -/
theorem fireDue_counted (d : Daemon) (now : Instant) :
    (d.fireDue now).1 = (sentTasks (d.step (.look { time := now })).1).length ∧
      (d.fireDue now).2.channel =
        { d.channel with
          tasks := d.channel.tasks ++ sentTasks (d.step (.look { time := now })).1 } := by
  have hsends := sends_fireAmid now (d.crontab.due now) (fun _ c => c) d.crontab.locks d.channel
  rw [step_look]
  exact ⟨(length_sentTasks _).symm, hsends.channel_eq fun _ _ => rfl⟩

/-- A second look at the same time fires nothing. -/
theorem step_look_look (d : Daemon) (l : Look) {l' : Look} (htime : l'.time = l.time)
    (horder : ∀ fired, (l'.order fired).Perm fired) :
    ((d.step (.look l)).2.step (.look l')).1 = [] := by
  have hempty : l'.order ((d.step (.look l)).2.crontab.due l'.time) = [] := by
    rw [htime, due_step_look]
    exact (horder []).eq_nil
  rw [step, hempty]
  rfl

/-- An entry follows its schedule: at every look it fires just if its schedule has come up since the
look before, however the looks are spaced, and its tasks are sent or dropped. -/
theorem follows_of_register {d₀ : Daemon} (hd₀ : d₀.crontab = {}) (before : List Event)
    {t₀ : Instant} {expr : String} {task : Task} {options : List TaskOption} {n : EntryId}
    {d : Daemon}
    (hregister : TaskQueue.register (d₀.after before) t₀ expr task options = (.ok n, d)) :
    ∃ s, Cron.Schedule.parse expr = .ok s ∧
      ∀ (events : List Event) (l : Look), (∀ event ∈ events, event ≠ .unregister n) →
        (∀ fired, (l.order fired).Perm fired) → Follows s n t₀ d events l := by
  -- whatever came before the registration, the crontab is tidy
  have hbefore : (d₀.after before).crontab.Tidy := by
    refine tidy_after before ?_
    rw [hd₀]
    exact ⟨keyed_nil, by simp⟩
  obtain ⟨e, hcarries, hparse, hnext, hsome⟩ := carries_of_register hbefore hregister
  obtain ⟨first, hfirst⟩ := Option.isSome_iff_exists.mp hsome
  refine ⟨e.schedule, hparse, fun events l hevents horder => ?_⟩
  have hproper := Cron.Schedule.proper_of_parse hparse
  have hyear := Cron.Schedule.le_year_of_next hfirst
  have hafter := hcarries.after events hevents
  constructor
  case due_iff => exact hcarries.dueAt_iff_occurs hproper hyear hnext hevents
  case fires => exact hafter.firingsOf_of_due horder
  case rests => exact (length_firingsOf hafter.tidy n horder).2
  case sends => exact sends_fireAmid _ _ _ _ _
  case counted => exact (d.after events).fireDue_counted l.time
  case moves =>
    intro hdue
    rw [hafter.nextRun?_of_due hdue, Entry.schedule_run]
  case stays => exact hafter.nextRun?_of_not_due
  case again => exact fun l' htime horder' => (d.after events).step_look_look l htime horder'
  case grows =>
    -- between two firings the time grows, and the first of them has moved it beyond its look
    intro mid l' hmid hdue hdue'
    obtain ⟨b, hb, -⟩ := id hdue
    obtain ⟨b', hb', -⟩ := hdue'
    refine ⟨b, b', hb, hb', hafter.lt_of_due hdue hmid hb ?_⟩
    rwa [Daemon.after, List.foldl_append] at hb'

/-- A task that fills a channel for one, fired before and after every second minute is asked for. -/
def filled : Daemon :=
  after { channel := ⟨1, [], true, false⟩ }
    [.register ⟨0, 0⟩ "* * * * *" ⟨"fill", ""⟩ [], .look { time := ⟨60, 0⟩ }]

theorem follows_of_register_missed :
    let d := (TaskQueue.register filled ⟨70, 5⟩ "*/2 * * * *" ⟨"mail", ""⟩ []).2
    let l : Look := { time := ⟨400, 0⟩, order := List.reverse }
    (TaskQueue.register filled ⟨70, 5⟩ "*/2 * * * *" ⟨"mail", ""⟩ []).1 = .ok 1 ∧
      ∃ s, Cron.Schedule.parse "*/2 * * * *" = .ok s ∧
        s.occurrences ⟨70, 5⟩ 4 = [⟨120, 0⟩, ⟨240, 0⟩, ⟨360, 0⟩, ⟨480, 0⟩] ∧
        Follows s 1 ⟨70, 5⟩ d [.look { time := ⟨100, 0⟩ }] l ∧
        ((d.after [.look { time := ⟨100, 0⟩ }]).firingsOf 1 l).map Firing.fate = [.refused] ∧
        ((d.after [.look { time := ⟨100, 0⟩ }]).step (.look l)).2.crontab.nextRun? 1 =
          some ⟨480, 0⟩ := by
  intro d l
  have haccepted : (TaskQueue.register filled ⟨70, 5⟩ "*/2 * * * *" ⟨"mail", ""⟩ []).1 = .ok 1 := by
    decide +kernel
  have hempty : ({ channel := ⟨1, [], true, false⟩ } : Daemon).crontab = {} := rfl
  obtain ⟨s, hs, hfollows⟩ := follows_of_register hempty
    [.register ⟨0, 0⟩ "* * * * *" ⟨"fill", ""⟩ [], .look { time := ⟨60, 0⟩ }]
    (d := d) (Prod.ext haccepted rfl)
  have hlook := hfollows [.look { time := ⟨100, 0⟩ }] l (by simp) fun fired => fired.reverse_perm
  have hoccurrences : (Cron.Schedule.parse "*/2 * * * *").map (·.occurrences ⟨70, 5⟩ 4) =
      .ok [⟨120, 0⟩, ⟨240, 0⟩, ⟨360, 0⟩, ⟨480, 0⟩] := by decide +kernel
  rw [hs] at hoccurrences
  exact ⟨haccepted, s, hs, Except.ok.inj hoccurrences, hlook, by decide +kernel, by decide +kernel⟩

end Daemon

end Crontab

end Courier

import Courier.Proofs.Keyed
import Courier.Proofs.Time.Lengths
import Courier.Scheduler.Queue

/-!
The locks of unique tasks.

A `Daemon.Event` is a registration, a removal, a look at the crontab, or something that happens to
the channel.  A look may take the due entries in any order, and the channel may change before every
send; with no such change a look is what the crontab does (`step_look`).  `Daemon.log` is the
history of all firings with their fates: sent, refused by the channel, or dropped as a duplicate.

What one firing does to the locks has three forms (`LockStep`): the task is common and asks for no
lock, its key is held, or it takes the lock.  It takes the lock before it is known whether the
channel takes the task, and keeps it either way.

The locks say no more than the history: a lock holds just if a firing that was not a duplicate holds
its key (`Guarded`).  One firing keeps this (`Guarded.resolve`), so a look does
(`Guarded.fireAmid`), and so does every run (`justified_log`).  It needs a clock that does not go
back, since a firing lets go of the locks that have ended, which an earlier instant would still see.

Main statements: a unique task is a duplicate just if an earlier firing, which the channel took or
refused, still holds its key (`Daemon.duplicate_iff`); and of the tasks that were sent, none comes
within the time of an earlier one, so that two of them share an instant only when the first is to be
unique for no time at all (`Daemon.eq_zero_of_clash`).
-/

namespace Courier

open Time

namespace Crontab

/-! ### Firings and their fates -/

/-- What becomes of a fired task.

* `refused`: the channel did not take it.
* `duplicate`: it is to be unique, and its lock was taken. -/
inductive Fate
  | sent
  | refused
  | duplicate
deriving DecidableEq

/-- What becomes of a fired task, and the locks and the channel afterwards. -/
def resolve (now : Instant) (locks : List (String × Instant)) (channel : Channel)
    (fired : QueuedTask × Option Nat) : Fate × List (String × Instant) × Channel :=
  let (free, locks) := match fired.2 with
    | some seconds => claim locks now fired.1 seconds
    | none => (true, locks)
  if free then
    match channel.send? fired.1 with
    | some channel => (.sent, locks, channel)
    | none => (.refused, locks, channel)
  else (.duplicate, locks, channel)

/-- A firing: the task, the seconds for which it is to be unique, when it fired, and its fate. -/
structure Firing where
  task : QueuedTask
  unique : Option Nat
  time : Instant
  fate : Fate
deriving DecidableEq

/-- Sends fired tasks in order.  Before each one, something may happen to the channel. -/
def fireAmid (now : Instant) : (meanwhile : Nat → Channel → Channel) →
    List (QueuedTask × Option Nat) → List (String × Instant) → Channel →
      List Firing × List (String × Instant) × Channel
  | _, [], locks, channel => ([], locks, channel)
  | meanwhile, fired :: rest, locks, channel =>
    let (fate, locks, channel) := resolve now locks (meanwhile 0 channel) fired
    let (firings, locks, channel) :=
      fireAmid now (fun n => meanwhile (n + 1)) rest locks channel
    (⟨fired.1, fired.2, now, fate⟩ :: firings, locks, channel)

/-- How many of some firings were sent. -/
def sentCount (firings : List Firing) : Nat := firings.countP fun f => f.fate = .sent

theorem sendFired_eq_resolve (now : Instant) (locks : List (String × Instant))
    (channel : Channel) (fired : QueuedTask × Option Nat) :
    sendFired now locks channel fired =
      (if (resolve now locks channel fired).1 = .sent then 1 else 0,
        (resolve now locks channel fired).2) := by
  unfold sendFired resolve
  rcases fired.2 with - | seconds
  · rcases channel.send? fired.1 <;> simp
  · rcases hclaim : claim locks now fired.1 seconds with ⟨free, locks'⟩
    rcases free with - | -
    · simp [hclaim]
    · rcases channel.send? fired.1 <;> simp [hclaim]

/-- When nothing happens to the channel, the firings are those of the crontab. -/
theorem sendAll_eq_fireAmid (now : Instant) (fired : List (QueuedTask × Option Nat)) :
    ∀ (locks : List (String × Instant)) (channel : Channel),
      sendAll now fired locks channel =
        (sentCount (fireAmid now (fun _ c => c) fired locks channel).1,
          (fireAmid now (fun _ c => c) fired locks channel).2) := by
  induction fired with
  | nil => exact fun _ _ => rfl
  | cons x rest ih =>
    intro locks channel
    rw [sendAll, sendFired_eq_resolve, fireAmid]
    dsimp only
    rw [ih]
    by_cases hfate : (resolve now locks channel x).1 = .sent
    · simp [sentCount, hfate, Nat.add_comm]
    · simp [sentCount, hfate]

/-! ### Runs of the daemon -/

/-- A look at the crontab.

* `order`: the order in which it takes the entries that are due.
* `meanwhile`: what happens to the channel before each send. -/
structure Look where
  time : Instant
  order : List (QueuedTask × Option Nat) → List (QueuedTask × Option Nat) := id
  meanwhile : Nat → Channel → Channel := fun _ c => c

namespace Daemon

/-- What may happen to a daemon.

* `handle`: something happens to the channel: its tasks are handled, or it is closed. -/
inductive Event
  | register (now : Instant) (expr : String) (task : Task) (options : List TaskOption)
  | unregister (entry : EntryId)
  | look (look : Look)
  | handle (change : Channel → Channel)

/-- The instant of a look. -/
def Event.time? : Event → Option Instant
  | .look l => some l.time
  | _ => none

theorem Event.eq_look_of_time? {e : Event} {now : Instant} (h : e.time? = some now) :
    ∃ l, e = .look l ∧ l.time = now := by
  rcases e with _ | _ | l | _
  case look => exact ⟨l, rfl, Option.some.inj h⟩
  all_goals cases h

/-- The firings of an event, and the daemon afterwards. -/
def step (d : Daemon) : Event → List Firing × Daemon
  | .register now expr task options => ([], (TaskQueue.register d now expr task options).2)
  | .unregister entry => ([], (TaskQueue.unregister d entry).2)
  | .look l =>
    let (firings, locks, channel) :=
      fireAmid l.time l.meanwhile (l.order (d.crontab.due l.time)) d.crontab.locks d.channel
    let crontab := { (d.fireDue l.time).2.crontab with locks }
    (firings, { d with crontab, channel })
  | .handle change => ([], { d with channel := change d.channel })

/-- The daemon after a run. -/
def after (d : Daemon) (events : List Event) : Daemon := events.foldl (fun d e => (d.step e).2) d

/-- All firings of a run. -/
def log (d : Daemon) : List Event → List Firing
  | [] => []
  | e :: events => (d.step e).1 ++ (d.step e).2.log events

/-- A look during which nothing else happens is a look of the daemon. -/
theorem step_look (d : Daemon) (now : Instant) :
    d.fireDue now = (sentCount (d.step (.look { time := now })).1,
      (d.step (.look { time := now })).2) := by
  simp only [fireDue, step, Crontab.fireDue, sendAll_eq_fireAmid, id_eq]

end Daemon

/-! ### Locks and the history -/

namespace Firing

/-- Whether the firing still keeps others with a key from being sent: its channel may have refused
it. -/
def Holds (f : Firing) (key : String) (now : Instant) : Prop :=
  f.fate ≠ .duplicate ∧ uniqueKey f.task = key ∧
    ∃ seconds, f.unique = some seconds ∧ now < Task.after f.time seconds

theorem not_holds_of_duplicate {f : Firing} (h : f.fate = .duplicate) (key : String)
    (now : Instant) : ¬f.Holds key now :=
  fun hf => hf.1 h

theorem not_holds_of_common {f : Firing} (h : f.unique = none) (key : String) (now : Instant) :
    ¬f.Holds key now := by
  rintro ⟨-, -, seconds, hs, -⟩
  rw [h] at hs
  cases hs

end Firing

/-- Whether a key is locked. -/
def Locked (locks : List (String × Instant)) (key : String) (now : Instant) : Prop :=
  ∃ expiry, (key, expiry) ∈ locks ∧ now < expiry

theorem locked_iff_lookup {locks : List (String × Instant)} {key : String} {now : Instant} :
    ((holding locks now).lookup key).isSome ↔ Locked locks key now := by
  rw [← mem_keys_iff_isSome]
  simp [holding, Locked]

theorem locked_holding {locks : List (String × Instant)} {key : String} {now later : Instant}
    (h : now ≤ later) : Locked (holding locks now) key later ↔ Locked locks key later := by
  unfold Locked holding
  constructor
  · rintro ⟨expiry, hmem, hlt⟩
    exact ⟨expiry, List.mem_of_mem_filter hmem, hlt⟩
  · rintro ⟨expiry, hmem, hlt⟩
    exact ⟨expiry, List.mem_filter.mpr ⟨hmem, by simpa using lt_of_le_of_lt h hlt⟩, hlt⟩

theorem locked_cons {locks : List (String × Instant)} {key key' : String}
    {now expiry : Instant} :
    Locked ((key', expiry) :: locks) key now ↔
      key' = key ∧ now < expiry ∨ Locked locks key now := by
  simp only [Locked, List.mem_cons, Prod.mk.injEq]
  constructor
  · rintro ⟨x, ⟨rfl, rfl⟩ | hx, hlt⟩
    · exact .inl ⟨rfl, hlt⟩
    · exact .inr ⟨x, hx, hlt⟩
  · rintro (⟨rfl, hlt⟩ | ⟨x, hx, hlt⟩)
    · exact ⟨expiry, .inl ⟨rfl, rfl⟩, hlt⟩
    · exact ⟨x, .inr hx, hlt⟩

/-- What a firing does to the locks.  One that is not to be unique leaves them alone.  Any other one
lets go of those that have ended, and if its key is free then, it takes the lock. -/
inductive LockStep (now : Instant) (locks : List (String × Instant))
    (fired : QueuedTask × Option Nat) : Fate → List (String × Instant) → Prop
  | common {fate : Fate} (hunique : fired.2 = none) (hfate : fate ≠ .duplicate) :
      LockStep now locks fired fate locks
  | held {seconds : Nat} (hunique : fired.2 = some seconds)
      (hlocked : Locked locks (uniqueKey fired.1) now) :
      LockStep now locks fired .duplicate (holding locks now)
  | taken {seconds : Nat} {fate : Fate} (hunique : fired.2 = some seconds)
      (hfree : ¬Locked locks (uniqueKey fired.1) now) (hfate : fate ≠ .duplicate) :
      LockStep now locks fired fate
        ((uniqueKey fired.1, Task.after now seconds) :: holding locks now)

theorem lockStep_resolve (now : Instant) (locks : List (String × Instant)) (channel : Channel)
    (fired : QueuedTask × Option Nat) :
    LockStep now locks fired (resolve now locks channel fired).1
      (resolve now locks channel fired).2.1 := by
  obtain ⟨task, unique⟩ := fired
  rcases unique with - | seconds
  case none =>
    -- no lock is asked for, so only the channel matters, and it makes no duplicates
    obtain ⟨fate, channel', hfate, hresolve⟩ : ∃ fate channel', fate ≠ Fate.duplicate ∧
        resolve now locks channel (task, none) = (fate, locks, channel') := by
      rcases hsend : channel.send? task with - | channel'
      · exact ⟨.refused, channel, by decide, by simp [resolve, hsend]⟩
      · exact ⟨.sent, channel', by decide, by simp [resolve, hsend]⟩
    rw [hresolve]
    exact .common rfl hfate
  case some =>
    by_cases hheld : ((holding locks now).lookup (uniqueKey task)).isSome
    · have hresolve : resolve now locks channel (task, some seconds) =
          (.duplicate, holding locks now, channel) := by
        simp [resolve, claim, hheld]
      rw [hresolve]
      exact .held rfl (locked_iff_lookup.mp hheld)
    · -- the lock is taken whatever the channel does
      obtain ⟨fate, channel', hfate, hresolve⟩ : ∃ fate channel', fate ≠ Fate.duplicate ∧
          resolve now locks channel (task, some seconds) =
            (fate, (uniqueKey task, Task.after now seconds) :: holding locks now, channel') := by
        rcases hsend : channel.send? task with - | channel'
        · exact ⟨.refused, channel, by decide, by simp [resolve, claim, hheld, hsend]⟩
        · exact ⟨.sent, channel', by decide, by simp [resolve, claim, hheld, hsend]⟩
      rw [hresolve]
      exact .taken rfl (mt locked_iff_lookup.mpr hheld) hfate

/-- Whether the locks are those that a history leaves, for all instants that are not before it. -/
def Guarded (log : List Firing) (locks : List (String × Instant)) : Prop :=
  ∀ key now, (∀ f ∈ log, f.time ≤ now) → (Locked locks key now ↔ ∃ f ∈ log, f.Holds key now)

/-- Whether a firing that is to be unique is a duplicate just if the history holds its key. -/
def Firing.Justified (log : List Firing) (f : Firing) : Prop :=
  f.unique ≠ none → (f.fate = .duplicate ↔ ∃ g ∈ log, g.Holds (uniqueKey f.task) f.time)

theorem guarded_nil : Guarded [] [] := by
  intro key now _
  simp [Locked]

theorem exists_holds_concat {log : List Firing} {f : Firing} {key : String} {now : Instant} :
    (∃ g ∈ log ++ [f], g.Holds key now) ↔ f.Holds key now ∨ ∃ g ∈ log, g.Holds key now := by
  simp only [List.mem_append, List.mem_singleton, or_and_right, exists_or, exists_eq_left]
  exact or_comm

namespace Guarded

variable {log : List Firing} {locks : List (String × Instant)} {now : Instant}

/-- A firing that leaves the locks and holds nothing. -/
theorem concat_idle (h : Guarded log locks) {f : Firing} (hf : ∀ key now, ¬f.Holds key now)
    {locks' : List (String × Instant)}
    (hlocks : ∀ key now, f.time ≤ now → (Locked locks' key now ↔ Locked locks key now)) :
    Guarded (log ++ [f]) locks' := by
  intro key now hle
  rw [hlocks key now (hle f (by simp)), exists_holds_concat, or_iff_right (hf key now)]
  exact h key now fun g hg => hle g (List.mem_append_left _ hg)

/-- A firing that takes the lock of its key. -/
theorem concat_lock (h : Guarded log locks) {f : Firing} {seconds : Nat}
    (hfate : f.fate ≠ .duplicate) (hunique : f.unique = some seconds) :
    Guarded (log ++ [f])
      ((uniqueKey f.task, Task.after f.time seconds) :: holding locks f.time) := by
  intro key now hle
  have hf : f.Holds key now ↔ uniqueKey f.task = key ∧ now < Task.after f.time seconds := by
    simp [Firing.Holds, hfate, hunique]
  rw [locked_cons, exists_holds_concat, hf, locked_holding (hle f (by simp)),
    h key now fun g hg => hle g (List.mem_append_left _ hg)]

/-- One firing keeps the locks those of the history, which justifies its fate. -/
theorem resolve (h : Guarded log locks) (hle : ∀ f ∈ log, f.time ≤ now) (channel : Channel)
    (fired : QueuedTask × Option Nat) :
    Guarded (log ++ [⟨fired.1, fired.2, now, (resolve now locks channel fired).1⟩])
        (Crontab.resolve now locks channel fired).2.1 ∧
      Firing.Justified log ⟨fired.1, fired.2, now, (Crontab.resolve now locks channel fired).1⟩ := by
  have hstep := lockStep_resolve now locks channel fired
  rcases hresolve : Crontab.resolve now locks channel fired with ⟨fate, locks', channel'⟩
  rw [hresolve] at hstep
  cases hstep with
  | common hnone hfate =>
    -- no lock is asked for, whatever the channel does
    exact ⟨h.concat_idle (Firing.not_holds_of_common hnone) fun key now' _ => Iff.rfl,
      fun hne => absurd hnone hne⟩
  | held hunique hlocked =>
    refine ⟨h.concat_idle (Firing.not_holds_of_duplicate rfl) fun key now' => locked_holding, ?_⟩
    exact fun _ => iff_of_true rfl ((h _ now hle).mp hlocked)
  | taken hunique hfree hfate =>
    exact ⟨h.concat_lock hfate hunique,
      fun _ => iff_of_false hfate fun hholds => hfree ((h _ now hle).mpr hholds)⟩

end Guarded

/-- Whether each of some firings is justified by what came before it. -/
def JustifiedAll (log : List Firing) : List Firing → Prop
  | [] => True
  | f :: firings => f.Justified log ∧ JustifiedAll (log ++ [f]) firings

theorem justifiedAll_append {fs gs : List Firing} : ∀ {log : List Firing},
    JustifiedAll log (fs ++ gs) ↔ JustifiedAll log fs ∧ JustifiedAll (log ++ fs) gs := by
  induction fs with
  | nil => simp [JustifiedAll]
  | cons f fs ih => simp [JustifiedAll, ih, and_assoc]

/-- All firings of a look are firings at its instant. -/
theorem time_of_mem_fireAmid {now : Instant} (fired : List (QueuedTask × Option Nat)) :
    ∀ {meanwhile : Nat → Channel → Channel} {locks : List (String × Instant)} {channel : Channel},
      ∀ f ∈ (fireAmid now meanwhile fired locks channel).1, f.time = now := by
  induction fired with
  | nil => simp [fireAmid]
  | cons x rest ih =>
    intro meanwhile locks channel f hf
    rw [fireAmid] at hf
    rcases List.mem_cons.mp hf with rfl | hf
    · rfl
    · exact ih f hf

/-- A look keeps the locks those of the history, which justifies all its firings. -/
theorem Guarded.fireAmid {now : Instant} (fired : List (QueuedTask × Option Nat)) :
    ∀ (meanwhile : Nat → Channel → Channel) (channel : Channel) {log : List Firing}
      {locks : List (String × Instant)}, Guarded log locks → (∀ f ∈ log, f.time ≤ now) →
        Guarded (log ++ (fireAmid now meanwhile fired locks channel).1)
            (Crontab.fireAmid now meanwhile fired locks channel).2.1 ∧
          JustifiedAll log (Crontab.fireAmid now meanwhile fired locks channel).1 := by
  induction fired with
  | nil => exact fun _ _ _ _ h _ => ⟨by simpa [Crontab.fireAmid] using h, trivial⟩
  | cons x rest ih =>
    intro meanwhile channel log locks h hle
    obtain ⟨hguarded, hjustified⟩ := h.resolve hle (meanwhile 0 channel) x
    rcases hresolve : Crontab.resolve now locks (meanwhile 0 channel) x with ⟨fate, locks', channel'⟩
    rw [hresolve] at hguarded hjustified
    -- the history still does not go beyond the look, now with the first firing in it
    have hle' : ∀ f ∈ log ++ [(⟨x.1, x.2, now, fate⟩ : Firing)], f.time ≤ now := by
      intro f hf
      rcases List.mem_append.mp hf with hf | hf
      · exact hle f hf
      · rw [List.mem_singleton.mp hf]
    obtain ⟨hrest, hall⟩ := ih (fun n => meanwhile (n + 1)) channel' hguarded hle'
    simp only [Crontab.fireAmid, hresolve]
    exact ⟨by simpa using hrest, hjustified, hall⟩

namespace Daemon

/-- Only looks take locks. -/
theorem locks_step_of_time? {d : Daemon} {e : Event} (h : e.time? = none) :
    (d.step e).1 = [] ∧ (d.step e).2.crontab.locks = d.crontab.locks := by
  rcases e with ⟨now, expr, task, options⟩ | entry | l | change
  case register =>
    refine ⟨rfl, ?_⟩
    simp only [step, TaskQueue.register]
    rcases hregister : d.crontab.register now expr task options with e | ⟨id, c⟩
    · rfl
    · -- a registration is refused or adds an entry
      unfold Crontab.register at hregister
      split at hregister
      · cases hregister
      · split at hregister
        · cases hregister
        · rw [← (Prod.mk.inj (Except.ok.inj hregister)).2]
  case unregister =>
    refine ⟨rfl, ?_⟩
    simp only [step, TaskQueue.unregister]
    rcases hunregister : d.crontab.unregister entry with e | c
    · rfl
    · unfold Crontab.unregister at hunregister
      split at hunregister
      · rw [← Except.ok.inj hunregister]
      · cases hunregister
  case look => cases h
  case handle => exact ⟨rfl, rfl⟩

/-- Whatever happens, under a clock that does not go back every fate is justified. -/
theorem justified_log (events : List Event) :
    ∀ {d : Daemon} {log : List Firing}, Guarded log d.crontab.locks →
      (events.filterMap Event.time?).Pairwise (· ≤ ·) →
      (∀ f ∈ log, ∀ t ∈ events.filterMap Event.time?, f.time ≤ t) →
        JustifiedAll log (d.log events) := by
  induction events with
  | nil => exact fun _ _ _ => trivial
  | cons e events ih =>
    intro d log hguarded hsorted hle
    rw [Daemon.log, justifiedAll_append]
    -- the locks stay those of the history, look by look
    rcases htime : e.time? with - | now
    · obtain ⟨hnone, hlocks⟩ := locks_step_of_time? (d := d) htime
      rw [List.filterMap_cons_none htime] at hsorted hle
      rw [hnone, List.append_nil]
      exact ⟨trivial, ih (hlocks.symm ▸ hguarded) hsorted hle⟩
    · -- at a look, all that came before it was not later, and all of its firings are at its time
      rw [List.filterMap_cons_some htime] at hsorted hle
      obtain ⟨hnow, hlater⟩ := List.pairwise_cons.mp hsorted
      obtain ⟨l, rfl, rfl⟩ := Event.eq_look_of_time? htime
      have hfired := Guarded.fireAmid (l.order (d.crontab.due l.time)) l.meanwhile d.channel
        hguarded fun f hf => hle f hf l.time List.mem_cons_self
      refine ⟨hfired.2, ih hfired.1 hlater fun f hf t ht => ?_⟩
      rcases List.mem_append.mp hf with hf | hf
      · exact hle f hf t (List.mem_cons_of_mem _ ht)
      · exact time_of_mem_fireAmid _ f hf ▸ hnow t ht

/-- The instants of a history do not go back. -/
theorem sorted_log (events : List Event) :
    ∀ {d : Daemon}, (events.filterMap Event.time?).Pairwise (· ≤ ·) →
      (d.log events).Pairwise (fun f g => f.time ≤ g.time) ∧
        ∀ f ∈ d.log events, f.time ∈ events.filterMap Event.time? := by
  induction events with
  | nil => exact fun _ => ⟨List.Pairwise.nil, by simp [Daemon.log]⟩
  | cons e events ih =>
    intro d hsorted
    rw [Daemon.log]
    rcases htime : e.time? with - | now
    · rw [List.filterMap_cons_none htime] at hsorted ⊢
      rw [(locks_step_of_time? htime).1]
      exact ih hsorted
    · rw [List.filterMap_cons_some htime] at hsorted ⊢
      obtain ⟨hnow, hlater⟩ := List.pairwise_cons.mp hsorted
      obtain ⟨hpairwise, hmem⟩ := ih (d := (d.step e).2) hlater
      have hfirst : ∀ f ∈ (d.step e).1, f.time = now := by
        obtain ⟨l, rfl, rfl⟩ := Event.eq_look_of_time? htime
        exact time_of_mem_fireAmid _
      refine ⟨List.pairwise_append.mpr ⟨?_, hpairwise, ?_⟩, ?_⟩
      · exact List.pairwise_of_forall_mem_list fun f hf g hg =>
          le_of_eq ((hfirst f hf).trans (hfirst g hg).symm)
      · exact fun f hf g hg => hfirst f hf ▸ hnow _ (hmem g hg)
      · intro f hf
        rcases List.mem_append.mp hf with hf | hf
        · exact hfirst f hf ▸ List.mem_cons_self
        · exact List.mem_cons_of_mem _ (hmem f hf)

/-- In a run that starts without locks, what came before it justifies every firing. -/
theorem justified_of_getElem? {d : Daemon} (hd : d.crontab.locks = []) {events : List Event}
    (hsorted : (events.filterMap Event.time?).Pairwise (· ≤ ·)) {i : Nat} {f : Firing}
    (hf : (d.log events)[i]? = some f) : f.Justified ((d.log events).take i) := by
  obtain ⟨hi, rfl⟩ := List.getElem?_eq_some_iff.mp hf
  have hall : JustifiedAll [] (d.log events) :=
    justified_log events (hd.symm ▸ guarded_nil) hsorted (by simp)
  rw [← List.take_append_drop i (d.log events), List.drop_eq_getElem_cons hi,
    justifiedAll_append] at hall
  simpa using hall.2.1

/-! ### Duplicates -/

/-- A task that is to be unique is a duplicate just if an earlier firing still holds its key: one
that was sent, or one that the channel refused. -/
theorem duplicate_iff {d : Daemon} (hd : d.crontab.locks = []) {events : List Event}
    (hsorted : (events.filterMap Event.time?).Pairwise (· ≤ ·)) {i : Nat} {f : Firing}
    (hf : (d.log events)[i]? = some f) (hunique : f.unique ≠ none) :
    f.fate = .duplicate ↔
      ∃ j < i, ∃ g, (d.log events)[j]? = some g ∧ (g.fate = .sent ∨ g.fate = .refused) ∧
        uniqueKey g.task = uniqueKey f.task ∧ g.time ≤ f.time ∧
          ∃ seconds, g.unique = some seconds ∧ f.time < Task.after g.time seconds := by
  obtain ⟨hi, rfl⟩ := List.getElem?_eq_some_iff.mp hf
  rw [justified_of_getElem? hd hsorted hf hunique]
  have hfate : ∀ g : Firing, g.fate ≠ .duplicate ↔ g.fate = .sent ∨ g.fate = .refused := by
    rintro ⟨_, _, _, _ | _ | _⟩ <;> simp
  constructor
  · rintro ⟨g, hg, hne, hkey, hseconds⟩
    obtain ⟨j, hj, rfl⟩ := List.mem_take_iff_getElem.mp hg
    obtain ⟨hji, hlen⟩ := Nat.lt_min.mp hj
    exact ⟨j, hji, _, List.getElem?_eq_getElem hlen, (hfate _).mp hne, hkey,
      List.pairwise_iff_getElem.mp (sorted_log events hsorted).1 j i hlen hi hji, hseconds⟩
  · rintro ⟨j, hji, g, hg, hsent, hkey, -, hseconds⟩
    obtain ⟨hlen, rfl⟩ := List.getElem?_eq_some_iff.mp hg
    exact ⟨_, List.mem_take_iff_getElem.mpr ⟨j, Nat.lt_min.mpr ⟨hji, hlen⟩, rfl⟩,
      (hfate _).mpr hsent, hkey, hseconds⟩

/-- A task without uniqueness fills a channel for one; then a unique task fires, once before and
once after the channel has been emptied. -/
def crowded : List Event :=
  [.register ⟨0, 0⟩ "* * * * *" ⟨"fill", ""⟩ [], .look { time := ⟨60, 0⟩ }, .unregister 0,
    .register ⟨0, 0⟩ "* * * * *" ⟨"mail", ""⟩ [.unique 300], .look { time := ⟨60, 0⟩ },
    .handle fun c => c.drain.2, .look { time := ⟨120, 0⟩ }]

theorem duplicate_iff_crowded :
    let log := Daemon.log { channel := ⟨1, [], true, false⟩ } crowded
    ∃ f, log[2]? = some f ∧ f.unique ≠ none ∧ f.fate = .duplicate ∧
      log.map Firing.fate = [.sent, .refused, .duplicate] ∧
      ∃ j < 2, ∃ g, log[j]? = some g ∧ (g.fate = .sent ∨ g.fate = .refused) ∧
        uniqueKey g.task = uniqueKey f.task ∧ g.time ≤ f.time ∧
          ∃ seconds, g.unique = some seconds ∧ f.time < Task.after g.time seconds := by
  intro log
  have hsorted : (crowded.filterMap Event.time?).Pairwise (· ≤ ·) := by decide +kernel
  have hthird : log[2]?.map (fun f => (f.unique, f.fate)) = some (some 300, .duplicate) := by
    decide +kernel
  obtain ⟨f, hf, hfields⟩ := Option.map_eq_some_iff.mp hthird
  obtain ⟨hunique, hfate⟩ := Prod.mk.inj hfields
  have hunique : f.unique ≠ none := by simp [hunique]
  exact ⟨f, hf, hunique, hfate, by decide +kernel,
    (duplicate_iff rfl hsorted hf hunique).mp hfate⟩

/-! ### Copies -/

end Daemon

namespace Firing

/-- Whether another copy of the task of `f` was sent within the time for which `f` is unique. -/
structure Clash (f g : Firing) : Prop where
  sent : f.fate = .sent ∧ g.fate = .sent
  queue : f.task.queue = g.task.queue
  name : f.task.name = g.task.name
  payload : f.task.payload = g.task.payload
  unique : g.unique ≠ none
  within : ∃ seconds, f.unique = some seconds ∧ f.time ≤ g.time ∧
    g.time < Task.after f.time seconds

theorem Clash.key {f g : Firing} (h : f.Clash g) : uniqueKey f.task = uniqueKey g.task := by
  rw [uniqueKey, uniqueKey, h.queue, h.name, h.payload]

end Firing

/-- If one time ends after an instant and another one does not, the other one has no length. -/
theorem eq_zero_of_after_le {a : Instant} {n m : Nat} (hn : a < Task.after a n)
    (hm : Task.after a m ≤ a) : m = 0 := by
  rcases Instant.after_cases a m with hlast | ⟨hseconds, -⟩
  · -- the second time ends with the last instant, so the first one does not end after it
    rw [hlast] at hm
    rcases Instant.after_cases a n with hlast' | ⟨hseconds', hle, hzero⟩
    · rw [hlast'] at hn
      exact absurd hn (not_lt.mpr hm)
    · have hgreatest : Instant.greatest.seconds = Instant.greatestSeconds := rfl
      rw [Instant.le_iff] at hm
      have hnone : n = 0 := by omega
      rw [hzero hnone] at hn
      exact absurd hn (lt_irrefl a)
  · rw [Instant.le_iff] at hm
    omega

namespace Daemon

/-- Whether of all tasks that were sent none comes within the time of another one. -/
def Exclusive (log : List Firing) : Prop :=
  ∀ (i j : Nat) (f g : Firing), i ≠ j → log[i]? = some f → log[j]? = some g → ¬f.Clash g

/-- No task is sent within the time of an earlier copy.  An earlier one lies within the time of a
later copy only when both were sent at one instant and the earlier one is unique for no time. -/
theorem eq_zero_of_clash {d : Daemon} (hd : d.crontab.locks = []) {events : List Event}
    (hsorted : (events.filterMap Event.time?).Pairwise (· ≤ ·)) {i j : Nat} {f g : Firing}
    (hij : i ≠ j) (hf : (d.log events)[i]? = some f) (hg : (d.log events)[j]? = some g)
    (hclash : f.Clash g) : j < i ∧ g.time = f.time ∧ g.unique = some 0 := by
  obtain ⟨seconds, hseconds, hle, hlt⟩ := hclash.within
  obtain ⟨hi, rfl⟩ := List.getElem?_eq_some_iff.mp hf
  obtain ⟨hj, rfl⟩ := List.getElem?_eq_some_iff.mp hg
  rcases Nat.lt_or_gt_of_ne hij with hlt' | hgt
  case inl =>
    -- the first copy holds the key when the second one fires
    have hfree := mt (justified_of_getElem? hd hsorted hg hclash.unique).mpr
      (by simp [hclash.sent.2])
    refine absurd ⟨_, List.mem_take_iff_getElem.mpr ⟨i, Nat.lt_min.mpr ⟨hlt', hi⟩, rfl⟩, ?_⟩ hfree
    exact ⟨by simp [hclash.sent.1], hclash.key, seconds, hseconds, hlt⟩
  case inr =>
    have htime : (d.log events)[j].time = (d.log events)[i].time :=
      le_antisymm (List.pairwise_iff_getElem.mp (sorted_log events hsorted).1 j i hj hi hgt) hle
    obtain ⟨other, hother⟩ := Option.ne_none_iff_exists'.mp hclash.unique
    have hfree := mt (justified_of_getElem? hd hsorted hf (by simp [hseconds])).mpr
      (by simp [hclash.sent.1])
    have hended : Task.after (d.log events)[i].time other ≤ (d.log events)[i].time := by
      refine le_of_not_gt fun hholds => hfree ?_
      exact ⟨_, List.mem_take_iff_getElem.mpr ⟨j, Nat.lt_min.mpr ⟨hgt, hj⟩, rfl⟩,
        by simp [hclash.sent.2], hclash.key.symm, other, hother, htime ▸ hholds⟩
    have hzero : other = 0 := eq_zero_of_after_le (htime ▸ hlt) hended
    exact ⟨hgt, htime, hzero ▸ hother⟩

/-- A copy that is unique for no time, and one that is unique for five minutes, which is registered
after the first one has fired and fires at the same instant. -/
def simultaneous : List Event :=
  [.register ⟨0, 0⟩ "* * * * *" ⟨"mail", "x"⟩ [.unique 0], .look { time := ⟨60, 0⟩ },
    .register ⟨0, 0⟩ "* * * * *" ⟨"mail", "x"⟩ [.unique 300], .look { time := ⟨60, 0⟩ }]

/-- A firing of one of them. -/
def copy (entry : EntryId) (seconds : Nat) : Firing :=
  ⟨⟨none, entry, "mail", "x", defaultQueue, defaultTaskMaxRetry, none, none, ⟨60, 0⟩, none, none,
    ⟨60, 0⟩⟩, some seconds, ⟨60, 0⟩, .sent⟩

theorem log_simultaneous :
    Daemon.log { channel := ⟨64, [], true, false⟩ } simultaneous = [copy 0 0, copy 1 300] := by
  decide +kernel

theorem clash_copy : (copy 1 300).Clash (copy 0 0) where
  sent := ⟨rfl, rfl⟩
  queue := rfl
  name := rfl
  payload := rfl
  unique := by decide
  within := ⟨300, rfl, by decide, by decide⟩

theorem eq_zero_of_clash_simultaneous :
    (simultaneous.filterMap Event.time?).Pairwise (· ≤ ·) ∧ (copy 1 300).Clash (copy 0 0) ∧
      0 < 1 ∧ (copy 0 0).time = (copy 1 300).time ∧ (copy 0 0).unique = some 0 := by
  have hsorted : (simultaneous.filterMap Event.time?).Pairwise (· ≤ ·) := by decide +kernel
  refine ⟨hsorted, clash_copy, ?_⟩
  exact eq_zero_of_clash (d := { channel := ⟨64, [], true, false⟩ }) rfl hsorted
    (by decide : 1 ≠ 0) (by rw [log_simultaneous]; rfl) (by rw [log_simultaneous]; rfl) clash_copy

/-- Two copies can be sent at one instant. -/
theorem not_exclusive_simultaneous :
    ¬Exclusive (Daemon.log { channel := ⟨64, [], true, false⟩ } simultaneous) := by
  rw [log_simultaneous]
  exact fun h => h 1 0 (copy 1 300) (copy 0 0) (by decide) rfl rfl clash_copy

end Daemon

end Crontab

end Courier

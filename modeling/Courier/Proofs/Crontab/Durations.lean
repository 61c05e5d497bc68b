import Courier.Proofs.Crontab.Locks
import Courier.Proofs.Task.LastOption
import Courier.Router

/-!
How long tasks wait and locks last.

Both end some seconds after a firing (`Task.after`), and the seconds may be any number that is
written in 64 bits.  Adding them can leave the range of the clock in three ways: the seconds may be
no length of time, the sum may be no time of the clock, and it may be no instant.  In each of them
the end is the last instant; else it is the exact sum (`Instant.after_eq_secondsLater`), and this is
the one fact about `Task.after` that is used here.  For it the instant of the firing has to be one
that a clock shows (`Instant.Ordinary`, `Instant.Representable`).

A lock stays while the looks come before its end, in whatever order (`Daemon.held_after`), since a
firing lets go only of locks that have ended.  This goes from one firing (`held_resolve`) to those
of a look (`held_fireAmid`) and on to a run.  That the lock is there after the look that took it is
a fact of its own (`taken_fireAmid`), since other tasks fire after it in the same look.

Main statement: no number of seconds leads into the past.  A task that is to wait is not published
before the exact instant, or the last one, and neither does a lock end before it
(`Crontab.unhurried`).
-/

namespace Courier

open Time

/-- The process time of a firing is that of the last option for it. -/
theorem Task.processAt_fire {ts : List TaskOption} {n : Nat}
    (h : TaskOption.last? ts .processTime = some (.processIn n)) (t : Task) (entry : Nat)
    (now : Instant) : (t.fire entry ts now).1.processAt = Task.after now n := by
  simp [Task.fire_eq_decided, Task.decided, h, TaskOption.instant?]

/-- Nothing is published before its process time. -/
theorem Router.not_publish_of_lt {t : QueuedTask} {now : Instant} (h : now < t.processAt)
    (chatId : Int) (m : Message) : verdict t now ≠ .ok (.publish chatId m) := by
  simp only [verdict, h, if_true]
  split
  · simp
  split
  · simp
  split
  · simp
  split <;> simp

namespace Crontab

/-- A claim that succeeds takes a lock until some seconds later. -/
theorem eq_of_claim {locks locks' : List (String × Instant)} {now : Instant} {t : QueuedTask}
    {n : Nat} (h : claim locks now t n = (true, locks')) :
    locks' = (uniqueKey t, Task.after now n) :: holding locks now := by
  unfold claim at h
  dsimp only at h
  split at h
  · cases h
  · exact (Prod.mk.inj h).2.symm

/-! ### Locks in a run -/

section Held

variable {key : String} {expiry now : Instant}

theorem mem_holding {locks : List (String × Instant)} (h : (key, expiry) ∈ locks)
    (hnow : now < expiry) : (key, expiry) ∈ holding locks now :=
  List.mem_filter.mpr ⟨h, by simpa using hnow⟩

/-- A firing before the end of a lock leaves it, and is a duplicate if it asks for it. -/
theorem held_resolve {locks : List (String × Instant)} (h : (key, expiry) ∈ locks)
    (hnow : now < expiry) (channel : Channel) (fired : QueuedTask × Option Nat) :
    (key, expiry) ∈ (resolve now locks channel fired).2.1 ∧
      (uniqueKey fired.1 = key → fired.2 ≠ none →
        (resolve now locks channel fired).1 = .duplicate) := by
  have hkept := mem_holding h hnow
  have hstep := lockStep_resolve now locks channel fired
  rcases hresolve : resolve now locks channel fired with ⟨fate, locks', channel'⟩
  rw [hresolve] at hstep
  cases hstep with
  | common hunique _ => exact ⟨h, fun _ hne => absurd hunique hne⟩
  | held _ _ => exact ⟨hkept, fun _ _ => rfl⟩
  | taken _ hfree _ =>
    exact ⟨List.mem_cons_of_mem _ hkept, fun hkey _ => absurd ⟨expiry, hkey ▸ h, hnow⟩ hfree⟩

/-- So do all firings of a look. -/
theorem held_fireAmid (hnow : now < expiry) (fired : List (QueuedTask × Option Nat)) :
    ∀ (meanwhile : Nat → Channel → Channel) (channel : Channel) {locks : List (String × Instant)},
      (key, expiry) ∈ locks →
        (key, expiry) ∈ (fireAmid now meanwhile fired locks channel).2.1 ∧
          ∀ f ∈ (fireAmid now meanwhile fired locks channel).1, uniqueKey f.task = key →
            f.unique ≠ none → f.fate = .duplicate := by
  induction fired with
  | nil => exact fun _ _ _ h => ⟨h, by simp [fireAmid]⟩
  | cons x rest ih =>
    intro meanwhile channel locks h
    obtain ⟨hmem, hdup⟩ := held_resolve h hnow (meanwhile 0 channel) x
    obtain ⟨hrest, hall⟩ := ih (fun n => meanwhile (n + 1))
      (resolve now locks (meanwhile 0 channel) x).2.2 hmem
    simp only [fireAmid]
    exact ⟨hrest, List.forall_mem_cons.mpr ⟨hdup, hall⟩⟩

/-- A firing that takes a lock leaves it behind, whatever fires after it in the same look. -/
theorem taken_fireAmid {n : Nat} (hnow : now < Task.after now n)
    (fired : List (QueuedTask × Option Nat)) :
    ∀ (meanwhile : Nat → Channel → Channel) (channel : Channel) {locks : List (String × Instant)},
      ∀ f ∈ (fireAmid now meanwhile fired locks channel).1, f.fate ≠ .duplicate →
        f.unique = some n →
          (uniqueKey f.task, Task.after now n) ∈ (fireAmid now meanwhile fired locks channel).2.1 := by
  induction fired with
  | nil => simp [fireAmid]
  | cons x rest ih =>
    intro meanwhile channel locks f hf hfate hunique
    simp only [fireAmid] at hf ⊢
    rcases List.mem_cons.mp hf with rfl | hf
    · -- the firing itself takes the lock, and those after it leave it there
      have hstep := lockStep_resolve now locks (meanwhile 0 channel) x
      rcases hresolve : resolve now locks (meanwhile 0 channel) x with ⟨fate, locks', channel'⟩
      rw [hresolve] at hstep hfate
      dsimp only at hfate hunique ⊢
      cases hstep with
      | common hnone _ => simp [hnone] at hunique
      | held _ _ => exact absurd rfl hfate
      | taken hseconds _ _ =>
        obtain rfl := Option.some.inj (hseconds.symm.trans hunique)
        exact (held_fireAmid hnow rest _ channel' List.mem_cons_self).1
    · exact ih _ _ f hf hfate hunique

namespace Daemon

/-- In a run whose looks come before the end of a lock, in whatever order, the lock stays, and those
that ask for it are duplicates. -/
theorem held_after (events : List Event) :
    ∀ {d : Daemon}, (key, expiry) ∈ d.crontab.locks →
      (∀ t ∈ events.filterMap Event.time?, t < expiry) →
        (key, expiry) ∈ (d.after events).crontab.locks ∧
          ∀ f ∈ d.log events, uniqueKey f.task = key → f.unique ≠ none → f.fate = .duplicate := by
  induction events with
  | nil => exact fun h _ => ⟨h, by simp [Daemon.log]⟩
  | cons e events ih =>
    intro d h hbefore
    -- one event keeps the lock: only looks touch locks, and this one comes before the end
    have hstep : (key, expiry) ∈ (d.step e).2.crontab.locks ∧
        ∀ f ∈ (d.step e).1, uniqueKey f.task = key → f.unique ≠ none → f.fate = .duplicate := by
      rcases htime : e.time? with - | now
      · obtain ⟨hnone, hlocks⟩ := locks_step_of_time? (d := d) htime
        rw [hnone, hlocks]
        exact ⟨h, by simp⟩
      · rw [List.filterMap_cons_some htime] at hbefore
        obtain ⟨l, rfl, rfl⟩ := Event.eq_look_of_time? htime
        exact held_fireAmid (hbefore l.time List.mem_cons_self) _ l.meanwhile d.channel h
    obtain ⟨hmem, hfirst⟩ := hstep
    obtain ⟨hlast, hrest⟩ := ih hmem fun t ht => hbefore t (List.mem_filterMap.mpr (by
      obtain ⟨e', he', ht⟩ := List.mem_filterMap.mp ht
      exact ⟨e', List.mem_cons_of_mem e he', ht⟩))
    exact ⟨hlast, List.forall_mem_append.mpr ⟨hfirst, hrest⟩⟩

end Daemon

end Held

/-! ### Lengths of time -/

/-- What lengths of time do to firings at an instant.

* `within`: an accepted length is the number of seconds, and the sum does not leave its range.
* `exact`: the sum is exact up to the last instant.
* `mono`: more seconds lead further.
* `due`: the last process time is that of the task.
* `routed`: nothing is published before it.
* `claimed`: a claim takes a lock that lasts for the seconds.
* `locked`: a lock that a look takes stays as long as no look comes at its end or after it. -/
structure Unhurried (now : Instant) : Prop where
  within : ∀ n s, length? n = some s →
    s = n ∧ 0 ≤ (now.clockLater s).1 ∧ (now.clockLater s).1 < bound63
  exact : ∀ n, Task.after now n = now.secondsLater n
  mono : ∀ m n, m ≤ n → now ≤ Task.after now m ∧ Task.after now m ≤ Task.after now n
  due : ∀ ts n, TaskOption.last? ts .processTime = some (.processIn n) →
    ∀ (t : Task) entry, (t.fire entry ts now).1.processAt = now.secondsLater n
  routed : ∀ os ts n, TaskOption.ofJobOptions os = .ok ts →
    (JobOption.last? os .processTime).bind JobOption.meaning? = some (.processIn n) →
      ∀ (t : Task) entry, ∀ time < now.secondsLater n, ∀ chatId m,
        Router.verdict (t.fire entry ts now).1 time ≠ .ok (.publish chatId m)
  claimed : ∀ locks t n locks', claim locks now t n = (true, locks') →
    locks' = (uniqueKey t, now.secondsLater n) :: holding locks now
  locked : ∀ (d : Daemon) (l : Look) (events : List Daemon.Event) f n, l.time = now →
    f ∈ (d.step (.look l)).1 → f.fate ≠ .duplicate → f.unique = some n →
      (∀ t ∈ now :: events.filterMap Daemon.Event.time?, t < now.secondsLater n) →
        (uniqueKey f.task, now.secondsLater n) ∈
            ((d.step (.look l)).2.after events).crontab.locks ∧
          ∀ g ∈ (d.step (.look l)).2.log events, uniqueKey g.task = uniqueKey f.task →
            g.unique ≠ none → g.fate = .duplicate

/-- However many seconds are given, tasks are not published and locks do not end before they have
passed, or the last instant has come. -/
theorem unhurried {now : Instant} (h : now.Ordinary) (hrange : now.Representable) :
    Unhurried now := by
  have hexact := Instant.after_eq_secondsLater h hrange
  constructor
  case within =>
    intro n s hs
    exact ⟨(length?_eq_some_iff.mp hs).2, now.clockLater_lt hs⟩
  case exact => exact hexact
  case mono =>
    intro m n hmn
    rw [hexact, hexact]
    exact ⟨Instant.le_secondsLater h hrange m, now.secondsLater_mono hmn⟩
  case due =>
    intro ts n hlast t entry
    rw [Task.processAt_fire hlast, hexact]
  case routed =>
    intro os ts n hts hlast t entry time htime chatId m
    refine Router.not_publish_of_lt ?_ chatId m
    have hlast : TaskOption.last? ts .processTime = some (.processIn n) := by
      rw [JobOption.last?_ofJobOptions hts]
      exact hlast
    rwa [Task.processAt_fire hlast, hexact]
  case claimed =>
    intro locks t n locks' hclaim
    rw [eq_of_claim hclaim, hexact]
  case locked =>
    rintro d l events f n rfl hf hfate hunique hbefore
    -- the lock is there after the look, and every later look comes before its end
    obtain ⟨hnow, hlater⟩ := List.forall_mem_cons.mp hbefore
    rw [← hexact] at hnow hlater ⊢
    exact Daemon.held_after events (taken_fireAmid hnow _ l.meanwhile d.channel f hf hfate hunique)
      hlater

/-- The greatest 64-bit number of seconds, for a task that is to wait and to be unique for so long,
at the first second of 2026. -/
theorem unhurried_greatest :
    let now : Instant := ⟨1767225600, 0⟩
    let fired := (⟨notifyTask, ""⟩ : Task).fire 0
      [.unique 18446744073709551615, .processIn 18446744073709551615] now
    now.Ordinary ∧ now.Representable ∧ fired.1.processAt = Instant.greatest ∧
      claim [] now fired.1 18446744073709551615 =
        (true, [(uniqueKey fired.1, Instant.greatest)]) ∧ Unhurried now := by
  intro now fired
  have hordinary : now.Ordinary := by decide
  have hrange : now.Representable := by decide
  exact ⟨hordinary, hrange, by decide +kernel, by decide +kernel, unhurried hordinary hrange⟩

end Crontab

end Courier

import Courier.Scheduler.Keeper.Basic

/-!
The scheduler comes to rest.

At every moment only so much can happen: a tick is taken once, a call is served once, and a pass
that has been made is over.  `Keeper.work` measures what there is to do, and every step makes it
smaller (`Keeper.step?_work`); `Keeper.settle` is the scheduler when nothing is left to do.
-/

namespace Courier.Scheduler.Keeper

open Time

variable {κ μ : Type}

/-! ### What there is to do -/

/-- How many ticks may still be taken at an instant; the first pass counts for more than that. -/
def ticks (now : Nat) (k : Keeper κ μ) : Nat :=
  match k.phase with
  | .initial => now + 2
  | .resting t | .syncing t => now + 1 - t.next
  | .off | .ended _ => 0

/-- How much there is to do without a further tick. -/
def tasks (k : Keeper κ μ) : Nat :=
  (if k.request.isSome then 2 else 0) + (if k.reading.isSome then 1 else 0) +
    match k.phase with
    | .initial | .syncing _ => if k.reading.any Reading.forLoop then 1 else 3
    | .resting _ => 1
    | .off | .ended _ => 0

/-- What there is to do at an instant, in the order of importance. -/
def work (now : Nat) (k : Keeper κ μ) : Nat × Nat := (k.ticks now, k.tasks)

variable [TaskQueue κ]

theorem loopStep?_work {k k' : Keeper κ μ} {now : Nat} (h : k.loopStep? now = some k') :
    Prod.Lex (· < ·) (· < ·) (k'.work now) (k.work now) := by
  unfold loopStep? at h
  split at h
  · rename_i hp
    split at h <;> simp only [Option.some.injEq, reduceCtorEq] at h
    subst h
    exact .left _ _ (by simp [ticks, hp])
  · rename_i t hp
    split at h
    · simp only [Option.some.injEq] at h
      subst h
      simp only [work]
      rcases Nat.eq_zero_or_pos (k.ticks now) with h0 | h0
      · rw [h0]
        exact .right _ (by simp [tasks, hp])
      · exact .left _ _ (by simpa [ticks] using h0)
    · split at h <;> simp only [Option.some.injEq, reduceCtorEq] at h
      rename_i hdue
      subst h
      have hlt := t.next_lt_next_taken now
      simp only [Ticker.isDue, decide_eq_true_eq] at hdue
      exact .left _ _ (by simp only [ticks, hp]; omega)
  · simp at h

theorem phase_apply (k : Keeper κ μ) (wall : Instant) (jobs : Except SchedulerError (List Job)) :
    (k.apply wall jobs).2.phase = k.phase ∧ (k.apply wall jobs).2.reading = none ∧
      (k.apply wall jobs).2.request = k.request := by
  cases jobs <;> exact ⟨rfl, rfl, rfl⟩

theorem ticks_begin_lt (k : Keeper κ μ) (now : Nat) (r : Except SchedulerError SyncReport) :
    (k.begin now r).ticks now < now + 2 := by
  unfold begin
  split
  · simp [ticks]
  · dsimp only
    split <;> simp only [ticks] <;> omega

theorem finishReading_work {k : Keeper κ μ} (m : Moment) {r : Reading} (h : k.reading = some r) :
    Prod.Lex (· < ·) (· < ·) ((k.finishReading m r).work m.elapsed) (k.work m.elapsed) := by
  obtain ⟨hp, hr, hq⟩ := phase_apply k m.wall r.jobs
  generalize ha : (k.apply m.wall r.jobs) = a at hp hr hq
  obtain ⟨report, k1⟩ := a
  simp only at hp hr hq
  unfold finishReading
  simp only [ha]
  by_cases hl : r.forLoop = true
  · rw [if_pos hl]
    split
    · rename_i hi
      exact .left _ _ (by
        have := ticks_begin_lt k1 m.elapsed report
        rw [hp] at hi
        simp only [ticks, hi] at this ⊢
        exact this)
    · rename_i t ht
      rw [hp] at ht
      have : ticks m.elapsed { k1 with phase := .resting t } = ticks m.elapsed k := by
        simp [ticks, ht]
      simp only [work, this]
      exact .right _ (by simp [tasks, ht, hr, hq, h, hl])
    · rename_i h1 h2
      have : ticks m.elapsed k1 = ticks m.elapsed k := by simp [ticks, hp]
      simp only [work, this]
      refine .right _ ?_
      simp only [tasks, hr, hq, h, hp]
      cases hk : k.phase <;> simp_all
  · rw [if_neg hl]
    have : ticks m.elapsed { k1 with reply := some (.report report) } = ticks m.elapsed k := by
      simp [ticks, hp]
    simp only [work, this]
    refine .right _ ?_
    simp only [tasks, hr, hq, h, hp]
    split <;> simp_all

variable [JobSource μ]

theorem tableStep?_work {k k' : Keeper κ μ} {m : Moment} (h : k.tableStep? m = some k') :
    Prod.Lex (· < ·) (· < ·) (k'.work m.elapsed) (k.work m.elapsed) := by
  unfold tableStep? at h
  split at h
  · rename_i r hr
    split at h <;> simp only [Option.some.injEq, reduceCtorEq] at h
    subst h
    exact finishReading_work m hr
  · rename_i hr
    split at h
    · rename_i r hq
      simp only [Option.some.injEq] at h
      subst h
      have : ticks m.elapsed (k.serve m r) = ticks m.elapsed k := by cases r <;> rfl
      simp only [work, this]
      refine .right _ ?_
      cases r <;> simp [serve, beginReading, tasks, hq, hr]
    · rename_i hq
      split at h <;> simp only [Option.some.injEq, reduceCtorEq] at h
      all_goals
        rename_i hp
        subst h
        have : ticks m.elapsed (k.beginReading m.elapsed true) = ticks m.elapsed k := rfl
        simp only [work, this]
        refine .right _ ?_
        simp [beginReading, tasks, hp, hr, hq]

/-- With every step the scheduler comes nearer to rest. -/
theorem step?_work {k k' : Keeper κ μ} {m : Moment} (h : k.step? m = some k') :
    Prod.Lex (· < ·) (· < ·) (k'.work m.elapsed) (k.work m.elapsed) := by
  unfold step? at h
  split at h
  · rename_i hl
    simp only [Option.some.injEq] at h
    exact h ▸ loopStep?_work hl
  · exact tableStep?_work h

/-! ### At rest -/

/-- The scheduler after all that it does at a moment, and its queue as well. -/
def settle (m : Moment) (k : Keeper κ μ) : Keeper κ μ :=
  match _h : k.step? m with
  | none => { k with scheduler := { k.scheduler with queue := Timed.settle m k.scheduler.queue } }
  | some k' => settle m k'
termination_by k.work m.elapsed
decreasing_by exact step?_work (by assumption)

/-- When the loop acts next. -/
def Phase.next? : Phase → Option Nat
  | .resting t => some t.next
  | _ => none

/-- When the scheduler or its queue acts next. -/
def next? (k : Keeper κ μ) : Option Nat :=
  earlier? (earlier? (Phase.next? k.phase) (k.reading.map Reading.stop))
    (Timed.next? k.scheduler.queue)

instance : Timed (Keeper κ μ) where
  settle := settle
  next? := next?

/-! ### Calls -/

/-- Makes a call from outside and waits for its reply.  There is one in time: the call waits at most
for one reading of the loop and for one of its own. -/
def call (c : Clocked (Keeper κ μ)) (r : Request) : Option Reply × Clocked (Keeper κ μ) :=
  let asked : Keeper κ μ := { c.system with request := some r, reply := none }
  let stop := c.moment.elapsed + 2 * asked.timeout + 1
  let (k, moment) := Timed.advanceUntil (fun k => k.reply.isSome) stop c.moment asked
  (k.reply, ⟨{ k with request := none, reply := none }, moment⟩)

end Courier.Scheduler.Keeper

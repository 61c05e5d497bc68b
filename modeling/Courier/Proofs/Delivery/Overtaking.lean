import Courier.Proofs.Delivery.Shift

/-!
Requests to wait, and what may come of them.

A unit that the service asks to wait is tried again while its budget lasts (`Deed.Delays`); its
entry goes back to the head of the delayed queue.

`overtaking` is a run in which another immediate entry comes in meanwhile and is asked to wait, too:
it gets in front of the first one and goes out before it (`Shift.run_overtaking`).  The run is made
of two parts that occur twice, an entry that comes in and is asked to wait (`Shift.run_asked`) and
one that is served at a tick (`Shift.run_served`); what each part does is computed for any state in
which it can happen, so the whole is computed for all units, periods, waits and latenesses.  Both
theorems about the order and the delays of one worker take their exceptions from this run.
-/

namespace Courier.Delivery

variable {π : Type}

/-! ### Requests to wait -/

/-- How long the entry has to wait after a deed. -/
def Deed.wait (a : Deed (Tracked π)) : Nat :=
  match a.turn with
  | .answered o => (a.item.answer o).2
  | _ => 0

/-- The deed is a request to wait, and the unit has attempts left. -/
structure Deed.Delays (a : Deed (Tracked π)) (wait : Nat) : Prop where
  turn : a.turn = .answered (.rateLimited wait)
  pos : 0 < wait
  left : ∃ u us, a.item.rest.units = u :: us ∧ u.retryCount + 1 < u.maxRetry

theorem Deed.Delays.wait_eq {a : Deed (Tracked π)} {wait : Nat} (h : a.Delays wait) :
    a.wait = wait := by
  obtain ⟨u, us, hunits, hleft⟩ := h.left
  simp [Deed.wait, h.turn, Entry.answer, hunits, h.pos, hleft]

theorem Deed.delays_wait {a : Deed (Tracked π)} (h : a.wait ≠ 0) : a.Delays a.wait := by
  unfold Deed.wait at h ⊢
  rcases hturn : a.turn with - | - | o | - | -
  all_goals rw [hturn] at h
  any_goals exact absurd rfl h
  simp only [Tracked.wait_answer, Entry.answer] at h ⊢
  rcases hunits : a.item.rest.units with - | ⟨u, us⟩
  · simp [hunits] at h
  · cases o with
    | delivered => simp [hunits] at h
    | failed reason => simp [hunits] at h
    | rateLimited wait =>
      by_cases hretry : 0 < wait ∧ u.retryCount + 1 < u.maxRetry
      · simp only [hretry, and_self, if_true]
        exact ⟨hturn, hretry.1, u, us, hunits, hretry.2⟩
      · simp [hunits, hretry] at h

/-- Taking an entry up makes no one wait. -/
theorem wait_takeUp (now : Nat) (w : Worker (Tracked π)) (x : Tracked π) :
    (w.takeUp now x).wait = 0 := by
  cases hdone : Deliverable.isDone x <;> simp [Worker.takeUp, Deed.wait, hdone]

/-! ### An entry that gets in front of another one -/

/-- An immediate entry with one unit comes in, is taken up and asked to wait. -/
def asked (u : Unit π) (wait : Nat) : List (Occasion π) :=
  [.put [⟨[u], false⟩], .rouse, .move .wake, .move (.answer (.rateLimited wait)), .poll]

/-- The worker takes up an entry at a tick and delivers it. -/
def served (ms : Nat) : List (Occasion π) :=
  [.elapse ms, .move .tick, .move (.answer .delivered), .poll]

namespace Shift

/-- The entry is now at the head of the delayed queue, and the next tick comes when the wait is
over. -/
theorem run_asked {s : Shift (Tracked π)} (hopen : s.worker.closed = false)
    (hhand : s.worker.inHand = none) (himm : s.worker.immediate = []) {u : Unit π}
    (hu : u.retryCount + 1 < u.maxRetry) {wait : Nat} (hwait : 0 < wait) :
    let x := Tracked.book s.count s.worker.recipient ⟨[u], false⟩
    s.run Tracked.book (asked u wait) = { s with
      worker := { s.worker with
        delayed := (x.answer (.rateLimited wait)).1 :: s.worker.delayed
        ticker := s.worker.ticker.postponed s.now wait }
      polling := true
      count := s.count + 1
      log := ⟨.answered (.rateLimited wait), s.now, s.worker.recipient, x⟩ ::
        ⟨.sent, s.now, s.worker.recipient, x⟩ ::
        ⟨.accepted, s.now, s.worker.recipient, x⟩ :: s.log } := by
  intro x
  -- the unit may be tried again, so the answer asks for the whole wait
  have hx : (x.rest.answer (.rateLimited wait)).2 = wait := by
    simp [x, Tracked.book, Entry.answer, hu, hwait]
  have hdone : Deliverable.isDone x = false := rfl
  simp only [asked, run_cons, run_nil]
  have hput : (s.step Tracked.book (.put [⟨[u], false⟩])).step Tracked.book .rouse = { s with
      worker := { s.worker with immediate := [x] }, polling := false, count := s.count + 1
      log := ⟨.accepted, s.now, s.worker.recipient, x⟩ :: s.log } := by
    simp [step, Worker.put, hopen, himm, bookAll, Tracked.book, x]
  rw [hput]
  simp [step, Worker.move?, Worker.isFree, hopen, hhand, himm, Worker.takeImmediate, Worker.hold,
    hdone, may, Worker.deeds, Worker.takeUp, Worker.answer, hx, Nat.ne_of_gt hwait]

/-- Ticks serve the head of the delayed queue. -/
theorem run_served {s : Shift (Tracked π)} (hopen : s.worker.closed = false)
    (hhand : s.worker.inHand = none) (himm : s.worker.immediate = []) (hpoll : s.polling = true)
    {y : Tracked π} {rest : List (Tracked π)} (hq : s.worker.delayed = y :: rest)
    (hy : y.rest.units.length = 1) {ms : Nat} (hdue : s.worker.ticker.next ≤ s.now + ms) :
    s.run Tracked.book (served ms) = { s with
      worker := { s.worker with
        delayed := rest, ticker := s.worker.ticker.taken (s.now + ms) }
      now := s.now + ms
      log := ⟨.finished, s.now + ms, s.worker.recipient, (y.answer .delivered).1⟩ ::
        ⟨.answered .delivered, s.now + ms, s.worker.recipient, y⟩ ::
        ⟨.sent, s.now + ms, s.worker.recipient, y⟩ :: s.log } := by
  obtain ⟨v, hv⟩ := List.length_eq_one_iff.mp hy
  have hleft : (y.answer .delivered).1.rest.units = [] := by
    simp [Tracked.answer, Entry.answer, hv]
  have hwait : (y.rest.answer .delivered).2 = 0 := by simp [Entry.answer, hv]
  simp only [served, run_cons, run_nil]
  simp [step, Worker.move?, Worker.isFree, hopen, hhand, hq, himm, hv, hleft, hwait, hpoll,
    Worker.tick, Worker.hold, may, Worker.deeds, Worker.takeUp, Worker.answer,
    Time.Ticker.isDue, hdue]

/-- Entry `0` is asked to wait; entry `1` comes in `s` later, is asked to wait for `q`, and is
delivered; at the next tick entry `0` is taken up again. -/
def overtaking (u v : Unit π) (period wait s q : Nat) : List (Occasion π) :=
  asked u wait ++ .elapse s :: (asked v q ++
    (served q ++ [.elapse (max Time.Ticker.leastPeriod period), .move .tick]))

/-- **An entry may be overtaken, and be tried again before its wait is over.**  What comes of the
run is told from the end. -/
theorem run_overtaking (r : Int) (period : Nat) {u v : Unit π} {wait s q : Nat}
    (hu : u.retryCount + 1 < u.maxRetry) (hv : v.retryCount + 1 < v.maxRetry) (hwait : 0 < wait)
    (hq : 0 < q) :
    let x := Tracked.book 0 r ⟨[u], false⟩
    let y := Tracked.book 1 r ⟨[v], false⟩
    let x' := (x.answer (.rateLimited wait)).1
    let y' := (y.answer (.rateLimited q)).1
    ((start r period).run Tracked.book (overtaking u v period wait s q)).log =
      [⟨.sent, s + q + max Time.Ticker.leastPeriod period, r, x'⟩,
        ⟨.finished, s + q, r, (y'.answer .delivered).1⟩,
        ⟨.answered .delivered, s + q, r, y'⟩, ⟨.sent, s + q, r, y'⟩,
        ⟨.answered (.rateLimited q), s, r, y⟩, ⟨.sent, s, r, y⟩, ⟨.accepted, s, r, y⟩,
        ⟨.answered (.rateLimited wait), 0, r, x⟩, ⟨.sent, 0, r, x⟩, ⟨.accepted, 0, r, x⟩] := by
  intro x y x' y'
  have hx' : x'.rest.units.length = 1 := by
    simp [x', x, Tracked.book, Tracked.answer, Entry.answer, hu, hwait]
  have hy' : y'.rest.units.length = 1 := by
    simp [y', y, Tracked.book, Tracked.answer, Entry.answer, hv, hq]
  -- the ticker has been set to the end of the second request, and the first entry goes out a period
  -- later
  have hdue : (((start r period : Shift (Tracked π)).worker.ticker.postponed (0 + s) q).taken
      (0 + s + q)).next ≤ 0 + s + q + max Time.Ticker.leastPeriod period := by
    simp [start, Worker.new, Time.Ticker.after, Time.Ticker.startingAt, Time.Ticker.taken,
      Time.Ticker.postponed]
  have hdone : Deliverable.isDone x' = false := by
    cases hunits : x'.rest.units with
    | nil => rw [hunits] at hx'; cases hx'
    | cons w ws => simp [hunits]
  rw [overtaking, run_append, run_cons, run_append, run_append,
    run_asked (s := start r period) rfl rfl rfl hu hwait, run_asked rfl rfl rfl hv hq,
    run_served rfl rfl rfl rfl rfl hy' (Nat.le_refl _), run_cons, run_cons, run_nil,
    step_tick Tracked.book rfl rfl rfl rfl hdue]
  -- the state is all known now; the clock still counts from zero
  show [⟨if Deliverable.isDone x' then .finished else .sent,
        0 + s + q + max Time.Ticker.leastPeriod period, r, x'⟩,
      ⟨.finished, 0 + s + q, r, (y'.answer .delivered).1⟩,
      ⟨.answered .delivered, 0 + s + q, r, y'⟩, ⟨.sent, 0 + s + q, r, y'⟩,
      ⟨.answered (.rateLimited q), 0 + s, r, y⟩, ⟨.sent, 0 + s, r, y⟩, ⟨.accepted, 0 + s, r, y⟩,
      ⟨.answered (.rateLimited wait), 0, r, x⟩, ⟨.sent, 0, r, x⟩,
      (⟨.accepted, 0, r, x⟩ : Deed (Tracked π))] = _
  rw [Nat.zero_add, hdone]
  rfl

end Shift

end Courier.Delivery

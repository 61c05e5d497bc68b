import Courier.Delivery.Station
import Courier.Proofs.Delivery.Bare

/-!
Workers that run make moves.

`Line.step?` picks what a worker does next, and `Line.settle` repeats it until nothing is left to
do.  Every step is a move of the worker, or leaves the worker as it is and makes a call
(`Line.step?_eq_some`); immediate entries come before ticks and before the shutdown signal, as in a
`Shift`.  So the worker of a `Station` is that of a shift (`Station.Reachable.exists_run`), and the
attempts that it reports are the calls that are over by the log of the shift.

A worker is `Tidy` if what it has in hand has a unit left and it is open while it has something in
hand.  Without this a step could find an entry in hand that there is no call to make for; every
worker that was started is tidy, and moves keep it so.

`Mirrored` is what holds of a station and a run of a shift: worker, signal, clock and attempts are
the same.  Whatever happens to a station extends the run, by the events that it stands for
(`Mirrored.put`, `Mirrored.settle`), so the induction is on how the station came to be.
-/

namespace Courier.Delivery

variable {σ π : Type}

/-! ### Workers in order -/

/-- What the worker has in hand has something left to deliver, and the worker is open then. -/
def Worker.Tidy {ε : Type} [Deliverable ε] (w : Worker ε) : Prop :=
  ∀ x, w.inHand = some x → w.closed = false ∧ Deliverable.isDone x = false

namespace Worker

variable {ε : Type} [Deliverable ε] {w w' : Worker ε}

theorem tidy_new (r : Int) (period now : Nat) : (new r period now : Worker ε).Tidy :=
  fun _ hx => nomatch hx

theorem Tidy.put {es : List ε} (h : w.Tidy) (hput : w.put es = .ok w') : w'.Tidy := by
  obtain ⟨-, rfl⟩ := put_eq_ok hput
  exact h

theorem Moves.tidy {stop : Bool} {now : Nat} {m : Move} {ds : Log ε}
    (h : w.Moves stop now m w' ds) : w'.Tidy := by
  have key : ∀ (v : Worker ε) (y : ε), v.closed = false → (v.hold y).Tidy := by
    intro v y hopen x hx
    obtain ⟨hdone, rfl⟩ : Deliverable.isDone y = false ∧ y = x := by simpa [hold] using hx
    exact ⟨hopen, hdone⟩
  cases h with
  | wake hopen | tick hopen | onward hopen => exact key _ _ hopen
  | idle hopen hhand | close hopen hhand | halt hopen hhand =>
    intro x hx
    exact absurd (hhand.symm.trans hx) (by simp)
  | back =>
    intro x hx
    exact absurd hx (Option.some_ne_none x).symm

end Worker

/-! ### Steps are moves -/

/-- The call that is over with a deed. -/
def Deed.attempt? (a : Deed (Entry π)) : Option (Attempt π) :=
  match a.turn, a.item.units with
  | .answered o, u :: _ => some ⟨a.time, a.recipient, u.payload, o⟩
  | _, _ => none

/-- The calls that are over, newest first. -/
def Log.attempts (log : Log (Entry π)) : List (Attempt π) := log.filterMap Deed.attempt?

namespace Log

@[simp] theorem attempts_nil : Log.attempts ([] : Log (Entry π)) = [] := rfl

theorem attempts_append (log log' : Log (Entry π)) :
    Log.attempts (log ++ log') = Log.attempts log ++ Log.attempts log' := List.filterMap_append

/-- Only answers end calls. -/
theorem attempts_eq_nil {log : Log (Entry π)} (h : ∀ a ∈ log, ∀ o, a.turn ≠ .answered o) :
    Log.attempts log = [] := by
  refine List.filterMap_eq_nil_iff.mpr fun a ha => ?_
  unfold Deed.attempt?
  split
  · rename_i o u us ht hu
    exact absurd ht (h a ha o)
  · rfl

end Log

namespace Worker

theorem attempt?_takeUp (now : Nat) (w : Worker (Entry π)) (x : Entry π) :
    (w.takeUp now x).attempt? = none := by
  cases hdone : x.units.isEmpty <;> simp [takeUp, Deed.attempt?, hdone]

theorem attempts_deeds_wake (now : Nat) (w : Worker (Entry π)) :
    Log.attempts (w.deeds now .wake) = [] := by
  rcases hq : w.immediate with - | ⟨x, rest⟩ <;> simp [deeds, hq, Log.attempts, attempt?_takeUp]

theorem attempts_deeds_tick (now : Nat) (w : Worker (Entry π)) :
    Log.attempts (w.deeds now .tick) = [] := by
  rcases hq : w.delayed with - | ⟨x, rest⟩ <;> simp [deeds, hq, Log.attempts, attempt?_takeUp]

theorem attempts_deeds_halt (now : Nat) (w : Worker (Entry π)) :
    Log.attempts (w.deeds now .halt) = [] := by
  refine Log.attempts_eq_nil fun a ha o ht => ?_
  obtain ⟨x, -, rfl⟩ := List.mem_map.mp ha
  cases ht

theorem attempts_deeds_answer (now : Nat) {w : Worker (Entry π)} {x : Entry π} {u : Unit π}
    {us : List (Unit π)} (hhand : w.inHand = some x) (hu : x.units = u :: us) (o : Outcome) :
    Log.attempts (w.deeds now (.answer o)) = [⟨now, w.recipient, u.payload, o⟩] := by
  have hanswer : Log.attempts [(⟨.answered o, now, w.recipient, x⟩ : Deed (Entry π))] =
      [⟨now, w.recipient, u.payload, o⟩] := by
    simp [Log.attempts, Deed.attempt?, hu]
  simp only [deeds, hhand, Option.toList_some, List.flatMap_singleton, Log.attempts_append, hanswer]
  split
  · simp [Log.attempts, attempt?_takeUp]
  · rfl

end Worker

namespace Line

/-- A step of a worker at work makes a call, or is a move; the worker turns to ticks and to the
shutdown signal only when it has no immediate entries. -/
theorem step?_eq_some [Sender σ π] {stop : Bool} {now : Nat} {l l' : Line σ π}
    (htidy : l.worker.Tidy) (h : l.step? stop now = some l') :
    (l'.worker = l.worker ∧ l'.attempts = l.attempts) ∨
    ∃ m, l.worker.move? stop now m = some l'.worker ∧
      l'.attempts = Log.attempts (l.worker.deeds now m) ++ l.attempts ∧
      (m = .tick ∨ m = .halt → l.worker.immediate = []) := by
  simp only [step?] at h
  split at h
  · -- with an entry in hand the worker makes its call, or takes the answer
    rename_i x hhand
    obtain ⟨hopen, hdone⟩ := htidy x hhand
    unfold proceed? at h
    split at h
    · -- the call is under way, or over
      rename_i u us c hu hc
      split at h <;> simp only [Option.some.injEq, reduceCtorEq] at h
      subst h
      refine .inr ⟨.answer c.outcome, by simp [Worker.move?, hopen, hhand], ?_, by simp⟩
      rw [Worker.attempts_deeds_answer now hhand hu]
      rfl
    · simp only [Option.some.injEq] at h
      subst h
      exact .inl ⟨rfl, rfl⟩
    · rename_i hu
      simp [hu] at hdone
  · -- without one it looks at the immediate queue first, then at the signal and the ticker
    rename_i hhand
    split at h
    · cases h
    · rename_i hopen
      have hfree : l.worker.isFree = true := by simp [Worker.isFree, hopen, hhand]
      split at h
      · rename_i himm
        obtain rfl := Option.some.inj h
        refine .inr ⟨.wake, by simp [Worker.move?, hfree, himm], ?_, by simp⟩
        rw [Worker.attempts_deeds_wake]
        rfl
      · rename_i himm
        have hnil : l.worker.immediate = [] := by simpa using himm
        split at h
        · rename_i hstop
          obtain rfl := Option.some.inj h
          refine .inr ⟨.halt, by simp [Worker.move?, hfree, hstop], ?_, fun _ => hnil⟩
          rw [Worker.attempts_deeds_halt]
          rfl
        · split at h
          · rename_i hdue
            obtain rfl := Option.some.inj h
            refine .inr ⟨.tick, by simp [Worker.move?, hfree, hdue], ?_, fun _ => hnil⟩
            rw [Worker.attempts_deeds_tick]
            rfl
          · cases h

end Line

/-! ### Stations are shifts -/

namespace Shift

/-- A worker can make every move for which it need not turn from immediate entries. -/
theorem run_move (t : Shift (Entry π)) {m : Move} {w : Worker (Entry π)}
    (hmove : t.worker.move? t.stop t.now m = some w)
    (himm : m = .tick ∨ m = .halt → t.worker.immediate = []) :
    ∃ events, t.run bare events = { t with
      worker := w, polling := false, log := t.worker.deeds t.now m ++ t.log } := by
  -- for a tick and for the end the worker has to poll, which it can do with its immediate queue
  -- empty
  have hpoll : ∀ m', t.worker.move? t.stop t.now m' = some w → m' = .tick ∨ m' = .halt →
      t.worker.immediate = [] →
      t.step bare .poll = { t with polling := true } := by
    intro m' hm' hkind hnil
    have hfree : t.worker.isFree = true := by
      rcases hkind with rfl | rfl <;>
        simp only [Worker.move?, Option.ite_none_right_eq_some, Bool.and_eq_true] at hm' <;>
        exact hm'.1.1
    simp [step, hfree, hnil]
  cases m with
  | wake =>
    refine ⟨[.rouse, .move .wake], ?_⟩
    rw [run_cons, run_cons, run_nil]
    simp [step, hmove, may]
  | answer o =>
    refine ⟨[.rouse, .move (.answer o)], ?_⟩
    rw [run_cons, run_cons, run_nil]
    simp [step, hmove, may]
  | tick =>
    refine ⟨[.poll, .move .tick], ?_⟩
    rw [run_cons, run_cons, run_nil, hpoll .tick hmove (.inl rfl) (himm (.inl rfl))]
    simp [step, hmove, may]
  | halt =>
    refine ⟨[.poll, .move .halt], ?_⟩
    rw [run_cons, run_cons, run_nil, hpoll .halt hmove (.inr rfl) (himm (.inr rfl))]
    simp [step, hmove, may]

/-- The worker of a shift is that of a line, and so are the attempts. -/
structure Follows (t : Shift (Entry π)) (stop : Bool) (now : Nat) (l : Line σ π) : Prop where
  worker : t.worker = l.worker
  stop : t.stop = stop
  now : t.now = now
  attempts : Log.attempts t.log = l.attempts

theorem Follows.settle [Sender σ π] {t : Shift (Entry π)} {stop : Bool} {now : Nat} {l : Line σ π}
    (h : t.Follows stop now l) (htidy : l.worker.Tidy) :
    (l.settle stop now).worker.Tidy ∧
      ∃ events, (t.run bare events).Follows stop now (l.settle stop now) := by
  -- along the steps of the worker, each of which is a move or leaves it as it is
  fun_induction Line.settle stop now l generalizing t with
  | case1 l hnone => exact ⟨htidy, [], h⟩
  | case2 l l' hstep ih =>
    rcases Line.step?_eq_some htidy hstep with ⟨hworker, hattempts⟩ | ⟨m, hmove, hattempts, himm⟩
    · exact ih ⟨h.worker.trans hworker.symm, h.stop, h.now, h.attempts.trans hattempts.symm⟩
        (hworker ▸ htidy)
    · rw [← h.worker, ← h.stop, ← h.now] at hmove
      rw [← h.worker] at himm
      obtain ⟨events, hrun⟩ := run_move t hmove himm
      have hfollows : (t.run bare events).Follows stop now l' := by
        rw [hrun]
        refine ⟨rfl, h.stop, h.now, ?_⟩
        rw [Log.attempts_append, h.attempts, hattempts, h.worker, h.now]
      obtain ⟨htidy', later, hlater⟩ := ih hfollows (Worker.moves_of_move? hmove).tidy
      refine ⟨htidy', events ++ later, ?_⟩
      rw [run_append]
      exact hlater

end Shift

theorem bookAll_bare (n : Nat) (r : Int) (es : List (Entry π)) : bookAll bare n r es = es := by
  induction es generalizing n with
  | nil => rfl
  | cons e es ih => rw [bookAll, ih, bare]

namespace Shift

variable {t : Shift (Entry π)} {stop : Bool} {now : Nat} {l : Line σ π}

theorem Follows.put (h : t.Follows stop now l) {entries : List (Entry π)} {w : Worker (Entry π)}
    (hput : l.worker.put entries = .ok w) :
    (t.step bare (.put entries)).Follows stop now { l with worker := w } := by
  have hput' : t.worker.put (bookAll bare t.count t.worker.recipient entries) = .ok w := by
    rw [bookAll_bare, h.worker, hput]
  simp only [step, hput']
  refine ⟨rfl, h.stop, h.now, ?_⟩
  rw [Log.attempts_append, h.attempts, Log.attempts_eq_nil, List.nil_append]
  intro a ha o ht
  obtain ⟨x, -, rfl⟩ := List.mem_map.mp (List.mem_reverse.mp ha)
  cases ht

theorem Follows.signal (h : t.Follows stop now l) (raised : Bool) :
    (t.step bare (.signal raised)).Follows raised now l :=
  ⟨h.worker, rfl, h.now, h.attempts⟩

theorem Follows.elapse (h : t.Follows stop now l) (ms : Nat) :
    (t.step bare (.elapse ms)).Follows stop (now + ms) l :=
  ⟨h.worker, h.stop, congrArg (· + ms) h.now, h.attempts⟩

end Shift

namespace Station

/-- The worker of a station is that of a shift, and nothing has happened to its ticker before it is
started. -/
structure Mirrored (r : Int) (period now : Nat) (s : Station σ π) (events : List (Occasion π)) :
    Prop where
  tidy : s.line.worker.Tidy
  ticker : s.started = false → s.line.worker.ticker = .after period 0
  follows : ((Shift.start r period).run bare events).Follows s.signal.raised now s.line

theorem Mirrored.start {r : Int} {period : Nat} {s : Station σ π} {events : List (Occasion π)}
    (h : Mirrored r period 0 s events) (hstarted : s.started = false) :
    Mirrored r period 0 (s.start 0) events := by
  have hticker : Time.Ticker.after s.line.worker.ticker.period 0 = s.line.worker.ticker := by
    have hperiod : max Time.Ticker.leastPeriod (max Time.Ticker.leastPeriod period) =
        max Time.Ticker.leastPeriod period := Nat.max_eq_right (Nat.le_max_left ..)
    rw [h.ticker hstarted]
    simp only [Time.Ticker.after, Time.Ticker.startingAt, hperiod]
  have hline : (s.start 0).line = s.line := by
    rw [Station.start, hticker]
  refine ⟨?_, fun hs => absurd hs (by simp [Station.start]), ?_⟩
  · rw [hline]
    exact h.tidy
  · rw [hline]
    exact h.follows

theorem Mirrored.put {r : Int} {period now : Nat} {s : Station σ π} {events : List (Occasion π)}
    (h : Mirrored r period now s events) (entries : List (Entry π)) :
    ∃ later, Mirrored r period now (s.put entries).2 (events ++ later) := by
  rcases hput : s.line.worker.put entries with rejected | w
  · -- a closed worker hands back what it is given
    refine ⟨[], ?_⟩
    rw [List.append_nil, Station.put, hput]
    exact h
  · refine ⟨[.put entries], ?_⟩
    rw [Station.put, hput]
    refine ⟨h.tidy.put hput, fun hs => ?_, ?_⟩
    · have hticker := h.ticker hs
      rw [(Worker.put_eq_ok hput).2]
      exact hticker
    · rw [Shift.run_append, Shift.run_cons, Shift.run_nil]
      exact h.follows.put hput

variable [Sender σ π]

theorem Mirrored.settle {r : Int} {period : Nat} {m : Time.Moment} {s : Station σ π}
    {events : List (Occasion π)} (h : Mirrored r period m.elapsed s events) :
    ∃ later, Mirrored r period m.elapsed (Time.Timed.settle m s) (events ++ later) := by
  simp only [Time.Timed.settle]
  split
  · rename_i hstarted
    obtain ⟨htidy, later, hlater⟩ := h.follows.settle h.tidy
    refine ⟨later, htidy, fun hs => ?_, ?_⟩
    · exact absurd (hs.symm.trans hstarted) (by simp)
    · rw [Shift.run_append]
      exact hlater
  · exact ⟨[], by rw [List.append_nil]; exact h⟩

/-- The stations for a recipient that can come to be seen, with the time.  The worker is started at
the beginning, and entries may be put in before. -/
inductive Reachable (r : Int) (period : Nat) : Nat → Station σ π → Prop
  | new (sender : σ) : Reachable r period 0 (new r period sender)
  | start {s} (h : Reachable r period 0 s) (hstarted : s.started = false) :
      Reachable r period 0 (s.start 0)
  | put {now s} (h : Reachable r period now s) (entries : List (Entry π)) :
      Reachable r period now (s.put entries).2
  | setSignal {now s} (h : Reachable r period now s) (value : Bool) :
      Reachable r period now (s.setSignal value)
  | dropSignal {now s} (h : Reachable r period now s) : Reachable r period now s.dropSignal
  | settle {s} {m : Time.Moment} (h : Reachable r period m.elapsed s) :
      Reachable r period m.elapsed (Time.Timed.settle m s)
  | wait {now s} (h : Reachable r period now s) (hstarted : s.started = true) (ms : Nat) :
      Reachable r period (now + ms) s

/-- **A station is a shift.**  Whatever happens to a station, its worker is the worker of a shift of
the bare entries, and its attempts are the calls that are over by the log of the shift. -/
theorem Reachable.exists_run {r : Int} {period now : Nat} {s : Station σ π}
    (h : Reachable r period now s) : ∃ events, Mirrored r period now s events := by
  -- each thing that happens to the station adds its events to the run
  induction h with
  | new sender =>
    exact ⟨[], Worker.tidy_new r period 0, fun _ => rfl, rfl, rfl, rfl, rfl⟩
  | start h hstarted ih =>
    obtain ⟨events, hm⟩ := ih
    exact ⟨events, hm.start hstarted⟩
  | put h entries ih =>
    obtain ⟨events, hm⟩ := ih
    obtain ⟨later, hlater⟩ := hm.put entries
    exact ⟨events ++ later, hlater⟩
  | @setSignal now s h value ih =>
    obtain ⟨events, hm⟩ := ih
    refine ⟨events ++ [.signal (s.setSignal value).signal.raised], hm.tidy, hm.ticker, ?_⟩
    rw [Shift.run_append]
    exact hm.follows.signal _
  | @dropSignal now s h ih =>
    obtain ⟨events, hm⟩ := ih
    refine ⟨events ++ [.signal s.dropSignal.signal.raised], hm.tidy, hm.ticker, ?_⟩
    rw [Shift.run_append]
    exact hm.follows.signal _
  | settle h ih =>
    obtain ⟨events, hm⟩ := ih
    obtain ⟨later, hlater⟩ := hm.settle
    exact ⟨events ++ later, hlater⟩
  | wait h hstarted ms ih =>
    obtain ⟨events, hm⟩ := ih
    refine ⟨events ++ [.elapse ms], hm.tidy, hm.ticker, ?_⟩
    rw [Shift.run_append]
    exact hm.follows.elapse ms

/-- The same shift with numbers and histories: what holds of tracked entries in every shift holds of
the entries of a station. -/
theorem Reachable.exists_tracked {r : Int} {period now : Nat} {s : Station σ π}
    (h : Reachable r period now s) :
    ∃ events, (((Shift.start r period).run Tracked.book events).map Tracked.rest).Follows
      s.signal.raised now s.line := by
  obtain ⟨events, hm⟩ := h.exists_run
  refine ⟨events, ?_⟩
  rw [Shift.run_bare]
  exact hm.follows

end Station

end Courier.Delivery

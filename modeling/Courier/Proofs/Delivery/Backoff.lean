import Courier.Proofs.Delivery.Overtaking

/-!
How far the service's requests to wait are heeded.

A unit that the service asks to wait goes back to the head of the delayed queue, and the ticker is
set to the end of the wait.  There is one ticker for all entries.  When an immediate entry is asked
to wait while another one is waiting already, the ticker is set anew: its next tick serves the
newcomer, and the tick after that the other entry, even if it was asked to wait for longer.

`notBefore` computes from the log before when an entry is not tried again: a request to wait sets
it, and every later request to an immediate entry lowers it to one period after the end of that
request.  It is the earliest time that the worker can be held to; that it is at least the end of the
request but for the case of a later one is a fact about logs alone (`le_notBefore`).

The invariant is `Patient`: no entry has been tried before its time, the next tick is late enough
for the first delayed entry, a period more is late enough for the others, and behind a delayed entry
there is none that has to wait.  The last part is needed because a delayed entry is put in front
without a period being left for those behind it.  Every move keeps it (`Patient.move`), one lemma
for each kind of move, and so does what is put in, since new entries are unknown to the log.

Main statements: no entry is tried before that time (`Patient.calls`), and there are runs that reach
it; together they say exactly when a request is not heeded (`Shift.backoff_unless_overtaken`).
-/

namespace Courier.Delivery

variable {π : Type}

/-- Before when the entry with number `n` is not tried again, as a log tells. -/
def notBefore (period n : Nat) : Log (Tracked π) → Nat
  | [] => 0
  | a :: log =>
    if a.wait = 0 then notBefore period n log
    else if a.item.number = n then max (notBefore period n log) (a.time + a.wait)
    else if a.item.rest.delay then notBefore period n log
    else min (notBefore period n log) (a.time + a.wait + period)

section

variable {period n : Nat} {log ds : Log (Tracked π)} {a : Deed (Tracked π)}

theorem notBefore_cons_of_wait (h : a.wait = 0) :
    notBefore period n (a :: log) = notBefore period n log := by
  rw [notBefore, if_pos h]

/-- An entry that is asked to wait is not tried before the end of the request. -/
theorem notBefore_cons_self (h : a.wait ≠ 0) :
    notBefore period a.item.number (a :: log) =
      max (notBefore period a.item.number log) (a.time + a.wait) := by
  rw [notBefore, if_neg h, if_pos rfl]

/-- When an immediate entry is asked to wait, the others have their turn a period later. -/
theorem notBefore_cons_le_add (h : a.wait ≠ 0) (hn : a.item.number ≠ n)
    (hdelay : a.item.rest.delay = false) :
    notBefore period n (a :: log) ≤ a.time + a.wait + period := by
  rw [notBefore, if_neg h, if_neg hn, hdelay]
  exact Nat.min_le_right _ _

theorem notBefore_append (h : ∀ a ∈ ds, a.wait = 0) :
    notBefore period n (ds ++ log) = notBefore period n log := by
  induction ds with
  | nil => rfl
  | cons a ds ih =>
    rw [List.cons_append, notBefore_cons_of_wait (h a List.mem_cons_self)]
    exact ih fun a' ha' => h a' (List.mem_cons_of_mem _ ha')

/-- A request to wait that goes to another entry does not put the time off. -/
theorem notBefore_cons_le (h : a.item.number ≠ n) :
    notBefore period n (a :: log) ≤ notBefore period n log := by
  rw [notBefore, if_neg h]
  split
  · exact Nat.le_refl _
  · split
    · exact Nat.le_refl _
    · exact Nat.min_le_left _ _

/-- An entry that has no part in the log need not wait. -/
theorem notBefore_eq_zero (h : ∀ a ∈ log, a.item.number ≠ n) : notBefore period n log = 0 := by
  induction log with
  | nil => rfl
  | cons a log ih =>
    have hle : notBefore period n (a :: log) ≤ notBefore period n log :=
      notBefore_cons_le (h a List.mem_cons_self)
    rw [ih fun a' ha' => h a' (List.mem_cons_of_mem _ ha')] at hle
    exact Nat.le_zero.mp hle

/-- Unless the entry has to wait until the end of a request, another immediate entry was asked to
wait since then. -/
theorem le_notBefore {between before : Log (Tracked π)} {wait : Nat} (ha : a.Delays wait) :
    a.time + wait ≤ notBefore period a.item.number (between ++ a :: before) ∨
    ∃ c ∈ between, ∃ q, c.Delays q ∧ c.item.rest.delay = false ∧
      c.item.number ≠ a.item.number ∧
      c.time + q + period ≤ notBefore period a.item.number (between ++ a :: before) := by
  -- by induction on the deeds that come after the request
  induction between with
  | nil =>
    left
    have hwait : a.wait ≠ 0 := by rw [ha.wait_eq]; exact Nat.ne_of_gt ha.pos
    rw [List.nil_append, notBefore_cons_self hwait, ha.wait_eq]
    exact Nat.le_max_right _ _
  | cons c between ih =>
    -- the time that the older deeds give is kept, put off, or lowered by `c`
    have hmono : notBefore period a.item.number (between ++ a :: before) ≤
          notBefore period a.item.number (c :: between ++ a :: before) ∨
        c.wait ≠ 0 ∧ c.item.rest.delay = false ∧ c.item.number ≠ a.item.number ∧
          c.time + c.wait + period =
            notBefore period a.item.number (c :: between ++ a :: before) := by
      rw [List.cons_append, notBefore]
      split
      · exact .inl (Nat.le_refl _)
      · split
        · exact .inl (Nat.le_max_left _ _)
        · -- a request to another entry: an immediate one lowers the time if it ends early
          split
          · exact .inl (Nat.le_refl _)
          · rename_i hwait hnumber hdelay
            rcases Nat.le_total (notBefore period a.item.number (between ++ a :: before))
              (c.time + c.wait + period) with hle | hle
            · exact .inl (Nat.le_of_eq (Nat.min_eq_left hle).symm)
            · exact .inr ⟨hwait, by simpa using hdelay, hnumber, (Nat.min_eq_right hle).symm⟩
    rcases hmono with hle | ⟨hwait, hdelay, hnumber, heq⟩
    · rcases ih with hwaited | ⟨c', hc', q, hq, hdelay, hnumber, htime⟩
      · exact .inl (Nat.le_trans hwaited hle)
      · exact .inr ⟨c', List.mem_cons_of_mem _ hc', q, hq, hdelay, hnumber,
          Nat.le_trans htime hle⟩
    · exact .inr ⟨c, List.mem_cons_self, c.wait, Deed.delays_wait hwait, hdelay, hnumber,
        Nat.le_of_eq heq⟩

end

/-- No call is made before its time. -/
def Heeded (period : Nat) : Log (Tracked π) → Prop
  | [] => True
  | a :: log =>
    (a.turn = .sent → notBefore period a.item.number log ≤ a.time) ∧ Heeded period log

theorem Heeded.append {period : Nat} {log ds : Log (Tracked π)} (h : Heeded period log)
    (hds : ∀ a ∈ ds, a.turn ≠ .sent) : Heeded period (ds ++ log) := by
  induction ds with
  | nil => exact h
  | cons a ds ih =>
    exact ⟨fun ht => absurd ht (hds a List.mem_cons_self),
      ih fun a' ha' => hds a' (List.mem_cons_of_mem _ ha')⟩

theorem Heeded.le_time {period : Nat} {later earlier : Log (Tracked π)} {b : Deed (Tracked π)}
    (h : Heeded period (later ++ b :: earlier)) (hb : b.turn = .sent) :
    notBefore period b.item.number earlier ≤ b.time := by
  induction later with
  | nil => exact h.1 hb
  | cons a later ih => exact ih h.2

namespace Shift

/-- No call is made before its time, and the ticker is set late enough for this to stay so.

* `head`: the next tick serves the first delayed entry, the one after that the second at most.
* `behind`: entries get in front of delayed entries only from the immediate queue, so that behind a
  delayed entry there is none that has to wait. -/
structure Patient (s : Shift (Tracked π)) : Prop where
  calls : Heeded s.worker.ticker.period s.log
  inHand : ∀ x, s.worker.inHand = some x →
    notBefore s.worker.ticker.period x.number s.log ≤ s.now
  head : ∀ x, s.worker.delayed.head? = some x →
    notBefore s.worker.ticker.period x.number s.log ≤ s.worker.ticker.next
  delayed : ∀ x ∈ s.worker.delayed, notBefore s.worker.ticker.period x.number s.log ≤
    s.worker.ticker.next + s.worker.ticker.period
  immediate : ∀ x ∈ s.worker.immediate, notBefore s.worker.ticker.period x.number s.log = 0
  behind : (s.worker.inHand.toList ++ s.worker.delayed).Pairwise fun y x =>
    y.rest.delay = true → notBefore s.worker.ticker.period x.number s.log = 0

theorem patient_start (r : Int) (period : Nat) : (start r period : Shift (Tracked π)).Patient :=
  ⟨trivial, fun _ hx => (nomatch hx), fun _ hx => (nomatch hx),
    fun _ hx => absurd hx List.not_mem_nil, fun _ hx => absurd hx List.not_mem_nil,
    List.Pairwise.nil⟩

/-- Nothing changes by deeds that are neither calls nor requests to wait. -/
theorem Patient.append {s : Shift (Tracked π)} (h : s.Patient) {ds : Log (Tracked π)}
    (hds : ∀ a ∈ ds, a.turn ≠ .sent ∧ a.wait = 0) : Patient { s with log := ds ++ s.log } := by
  have hsame : ∀ n, notBefore s.worker.ticker.period n (ds ++ s.log) =
      notBefore s.worker.ticker.period n s.log :=
    fun n => notBefore_append fun a ha => (hds a ha).2
  refine ⟨h.calls.append fun a ha => (hds a ha).1, ?_, ?_, ?_, ?_, ?_⟩
  all_goals simp only [hsame]
  · exact h.inHand
  · exact h.head
  · exact h.delayed
  · exact h.immediate
  · exact h.behind

/-- New entries need not wait. -/
theorem Patient.put {s : Shift (Tracked π)} (h : s.Patient) {es : List (Tracked π)}
    {w : Worker (Tracked π)} (hput : s.worker.put es = .ok w)
    (hnew : ∀ x ∈ es, notBefore s.worker.ticker.period x.number s.log = 0) :
    Patient { s with worker := w } := by
  obtain ⟨-, rfl⟩ := Worker.put_eq_ok hput
  refine ⟨h.calls, h.inHand, fun x hx => ?_, fun x hx => ?_, fun x hx => ?_, ?_⟩
  · -- the first delayed entry is a new one only if there was none
    rcases hq : s.worker.delayed with - | ⟨y, rest⟩
    · rw [hq, List.nil_append] at hx
      rw [hnew x (List.mem_filter.mp (List.mem_of_mem_head? hx)).1]
      exact Nat.zero_le _
    · rw [hq] at hx
      exact h.head x (by rw [hq]; exact hx)
  · rcases List.mem_append.mp hx with hx | hx
    · exact h.delayed x hx
    · rw [hnew x (List.mem_filter.mp hx).1]
      exact Nat.zero_le _
  · rcases List.mem_append.mp hx with hx | hx
    · exact h.immediate x hx
    · exact hnew x (List.mem_filter.mp hx).1
  · -- new entries are behind all others
    rw [← List.append_assoc]
    refine List.pairwise_append.mpr ⟨h.behind, ?_, ?_⟩
    · refine List.pairwise_of_forall_mem_list fun y _ x hx _ => ?_
      exact hnew x (List.mem_filter.mp hx).1
    · exact fun y _ x hx _ => hnew x (List.mem_filter.mp hx).1

/-- The worker takes up the entry in hand, for which the time has come. -/
theorem Patient.hold {s : Shift (Tracked π)} (h : s.Patient) {x : Tracked π}
    (hx : s.worker.inHand = some x) :
    Patient { s with
      worker := s.worker.hold x, log := s.worker.takeUp s.now x :: s.log } := by
  have hsame : ∀ n, notBefore s.worker.ticker.period n (s.worker.takeUp s.now x :: s.log) =
      notBefore s.worker.ticker.period n s.log := by
    intro n
    exact notBefore_cons_of_wait (wait_takeUp _ _ _)
  -- taking up an entry is no request, so no time changes
  refine ⟨⟨fun _ => h.inHand x hx, h.calls⟩, ?_, ?_, ?_, ?_, ?_⟩
  all_goals simp only [Worker.ticker_hold, Worker.delayed_hold, Worker.immediate_hold, hsame]
  · intro y hy
    obtain rfl := Worker.eq_of_inHand_hold hy
    exact h.inHand y hx
  · exact h.head
  · exact h.delayed
  · exact h.immediate
  · -- an entry that is done is not in hand any more
    have hbehind := h.behind
    rw [hx] at hbehind
    rw [Worker.inHand_hold]
    -- an entry without units is finished at once
    split
    · exact hbehind.of_cons
    · exact hbehind

/-- The worker takes the first immediate entry. -/
theorem Patient.wake {s : Shift (Tracked π)} (h : s.Patient) {x : Tracked π}
    {rest : List (Tracked π)} (hhand : s.worker.inHand = none)
    (hq : s.worker.immediate = x :: rest) (hdelay : x.rest.delay = false) :
    Patient { s with worker := { s.worker with immediate := rest, inHand := some x } } := by
  have hx : x ∈ s.worker.immediate := by rw [hq]; exact List.mem_cons_self
  refine ⟨h.calls, fun y hy => ?_, h.head, h.delayed, fun y hy => ?_, ?_⟩
  · obtain rfl := Option.some.inj hy
    rw [h.immediate x hx]
    exact Nat.zero_le _
  · exact h.immediate y (by rw [hq]; exact List.mem_cons_of_mem _ hy)
  · -- the entry in hand is immediate, so nothing is asked of those behind it
    have hbehind := h.behind
    rw [hhand] at hbehind
    refine List.pairwise_cons.mpr ⟨fun y _ hdelay' => ?_, hbehind⟩
    rw [hdelay] at hdelay'
    cases hdelay'

/-- The worker takes the first delayed entry, at a tick. -/
theorem Patient.tick {s : Shift (Tracked π)} (h : s.Patient) {x : Tracked π}
    {rest : List (Tracked π)} (hhand : s.worker.inHand = none)
    (hq : s.worker.delayed = x :: rest) (hdue : s.worker.ticker.next ≤ s.now) :
    Patient { s with worker := { s.worker with
      ticker := s.worker.ticker.taken s.now, delayed := rest, inHand := some x } } := by
  -- the second entry becomes the first, and its tick comes a period later
  have hrest : ∀ y ∈ rest, notBefore s.worker.ticker.period y.number s.log ≤
      (s.worker.ticker.taken s.now).next := fun y hy =>
    Nat.le_trans (h.delayed y (by rw [hq]; exact List.mem_cons_of_mem _ hy))
      (s.worker.ticker.add_period_le_next_taken s.now)
  refine ⟨h.calls, fun y hy => ?_, fun y hy => ?_, fun y hy => ?_, h.immediate, ?_⟩
  · obtain rfl := Option.some.inj hy
    exact Nat.le_trans (h.head x (by rw [hq]; rfl)) hdue
  · exact hrest y (List.mem_of_mem_head? hy)
  · exact Nat.le_trans (hrest y hy) (Nat.le_add_right _ _)
  · have hbehind := h.behind
    rw [hhand, hq] at hbehind
    exact hbehind

/-- The worker takes a tick, but no entry. -/
theorem Patient.idle {s : Shift (Tracked π)} (h : s.Patient) (hq : s.worker.delayed = [])
    (closed : Bool) :
    Patient { s with worker := { s.worker with
      ticker := s.worker.ticker.taken s.now, closed } } := by
  refine ⟨h.calls, h.inHand, fun y hy => ?_, fun y hy => ?_, h.immediate, h.behind⟩
  · rw [hq] at hy
    cases hy
  · rw [hq] at hy
    cases hy

/-- The entry in hand is answered. -/
theorem Patient.onward {s : Shift (Tracked π)} (h : s.Patient) {x : Tracked π}
    (hhand : s.worker.inHand = some x) (o : Outcome) :
    Patient { s with worker := { s.worker with inHand := some (Deliverable.answer x o).1 } } := by
  refine ⟨h.calls, fun y hy => ?_, h.head, h.delayed, h.immediate, ?_⟩
  · obtain rfl := Option.some.inj hy
    exact h.inHand x hhand
  · have hbehind := h.behind
    rw [hhand] at hbehind
    refine List.pairwise_cons.mpr ⟨fun y hy hdelay => ?_, hbehind.of_cons⟩
    exact List.rel_of_pairwise_cons hbehind hy ((x.delay_answer o).symm.trans hdelay)

/-- The entry in hand has to wait. -/
theorem Patient.back {s : Shift (Tracked π)} (h : s.Patient) {x : Tracked π}
    (hhand : s.worker.inHand = some x) {o : Outcome} (hwait : (Deliverable.answer x o).2 ≠ 0)
    (hne : ∀ y ∈ s.worker.delayed ++ s.worker.immediate, y.number ≠ x.number) :
    Patient { s with
      worker := { s.worker with
        inHand := none
        delayed := (Deliverable.answer x o).1 :: s.worker.delayed
        ticker := s.worker.ticker.postponed s.now (Deliverable.answer x o).2 }
      log := ⟨.answered o, s.now, s.worker.recipient, x⟩ :: s.log } := by
  have hbehind := h.behind
  rw [hhand] at hbehind
  -- the entry itself waits until the end of the request
  have hself : notBefore s.worker.ticker.period x.number
      (⟨.answered o, s.now, s.worker.recipient, x⟩ :: s.log) ≤
      s.now + (Deliverable.answer x o).2 := by
    refine Nat.le_trans (Nat.le_of_eq (notBefore_cons_self hwait)) ?_
    exact Nat.max_le.mpr ⟨Nat.le_add_right_of_le (h.inHand x hhand), Nat.le_refl _⟩
  -- the others do not wait for longer than before
  have hothers : ∀ y ∈ s.worker.delayed ++ s.worker.immediate,
      notBefore s.worker.ticker.period y.number
        (⟨.answered o, s.now, s.worker.recipient, x⟩ :: s.log) ≤
      notBefore s.worker.ticker.period y.number s.log :=
    fun y hy => notBefore_cons_le (Ne.symm (hne y hy))
  refine ⟨⟨fun ht => (nomatch ht), h.calls⟩, fun y hy => (nomatch hy), fun y hy => ?_,
    fun y hy => ?_, fun y hy => ?_, ?_⟩
  · obtain rfl := Option.some.inj hy
    exact hself
  · -- the others have their turn a period after the entry, if it is immediate
    rcases List.mem_cons.mp hy with rfl | hy
    · exact Nat.le_add_right_of_le hself
    · cases hdelay : x.rest.delay with
      | true =>
        -- behind a delayed entry there is none that has to wait
        have hle := hothers y (List.mem_append_left _ hy)
        rw [List.rel_of_pairwise_cons hbehind hy hdelay] at hle
        exact Nat.le_trans hle (Nat.zero_le _)
      | false =>
        exact notBefore_cons_le_add hwait (Ne.symm (hne y (List.mem_append_left _ hy))) hdelay
  · exact Nat.le_zero.mp (h.immediate y hy ▸ hothers y (List.mem_append_right _ hy))
  · refine List.pairwise_cons.mpr ⟨fun y hy hdelay => ?_, hbehind.of_cons.imp_of_mem ?_⟩
    · have hzero := List.rel_of_pairwise_cons hbehind hy ((x.delay_answer o).symm.trans hdelay)
      exact Nat.le_zero.mp (hzero ▸ hothers y (List.mem_append_left _ hy))
    · intro z y _ hy hzero hdelay
      exact Nat.le_zero.mp (hzero hdelay ▸ hothers y (List.mem_append_left _ hy))

theorem Patient.move {s : Shift (Tracked π)} (h : s.Patient) (hsound : s.Sound) {m : Move}
    {w : Worker (Tracked π)} {ds : Log (Tracked π)}
    (hmoves : s.worker.Moves s.stop s.now m w ds) :
    Patient { s with worker := w, log := ds ++ s.log } := by
  -- each move is one of the steps above; the last drops what is left, which asks for nothing
  cases hmoves with
  | @wake x rest hopen hhand hq =>
    have hdelay := hsound.immediate x (by rw [hq]; exact List.mem_cons_self)
    exact (h.wake hhand hq hdelay).hold rfl
  | tick hopen hhand hdue hq => exact (h.tick hhand hq hdue).hold rfl
  | idle hopen hhand hdue hq himm => exact h.idle hq s.worker.closed
  | close hopen hhand hdue hq himm => exact h.idle hq true
  | @onward x o hopen hhand hwait =>
    have hanswered : Patient { s with
        log := [⟨.answered o, s.now, s.worker.recipient, x⟩] ++ s.log } :=
      h.append fun a ha => by
        rw [List.mem_singleton.mp ha]
        exact ⟨by simp, hwait⟩
    exact (hanswered.onward hhand o).hold rfl
  | back hopen hhand hwait =>
    exact h.back hhand hwait fun y hy => hsound.number_ne_of_inHand hopen hhand hy
  | halt hopen hhand hstop =>
    have hdropped : Patient { s with
        log := ((s.worker.delayed ++ s.worker.immediate).map
          fun x => ⟨.dropped, s.now, s.worker.recipient, x⟩) ++ s.log } :=
      h.append fun a ha => by
        obtain ⟨x, -, rfl⟩ := List.mem_map.mp ha
        exact ⟨by simp, rfl⟩
    exact ⟨hdropped.calls, hdropped.inHand, hdropped.head, hdropped.delayed,
      hdropped.immediate, hdropped.behind⟩

/-- Time passes. -/
theorem Patient.quiet {s : Shift (Tracked π)} (h : s.Patient) (polling stop : Bool) (ms : Nat) :
    Patient { s with polling, stop, now := s.now + ms } :=
  ⟨h.calls, fun x hx => Nat.le_add_right_of_le (h.inHand x hx), h.head, h.delayed, h.immediate,
    h.behind⟩

theorem Patient.step {s s' : Shift (Tracked π)} (h : s.Patient) (hsound : s.Sound)
    (hstep : Step Tracked.book s s') : s'.Patient := by
  cases hstep with
  | @put entries w hput =>
    -- new entries have greater numbers than all that the log tells of
    have hput' := h.put hput fun x hx => notBefore_eq_zero fun a ha => by
      have hlt := (hsound.log a ha).number_lt
      have hle := (mem_bookAll hx).1
      omega
    have hlogged : Patient { s with
        worker := w
        log := ((bookAll Tracked.book s.count s.worker.recipient entries).map
          fun x => ⟨.accepted, s.now, s.worker.recipient, x⟩).reverse ++ s.log } :=
      hput'.append fun a ha => by
        obtain ⟨x, -, rfl⟩ := List.mem_map.mp (List.mem_reverse.mp ha)
        exact ⟨by simp, rfl⟩
    exact ⟨hlogged.calls, hlogged.inHand, hlogged.head, hlogged.delayed, hlogged.immediate,
      hlogged.behind⟩
  | move hmay hmoves => exact (h.move hsound hmoves).quiet false s.stop 0
  | quiet polling stop ms hpoll => exact h.quiet polling stop ms

theorem period_step {s s' : Shift (Tracked π)} (h : Step Tracked.book s s') :
    s'.worker.ticker.period = s.worker.ticker.period := by
  cases h with
  | put entries hput => rw [(Worker.put_eq_ok hput).2]
  | move hmay hmoves => cases hmoves <;> rfl
  | quiet => rfl

theorem patient_run (r : Int) (period : Nat) (events : List (Occasion π)) :
    ((start r period).run Tracked.book events).Patient ∧
    ((start r period).run Tracked.book events).worker.ticker.period =
      max Time.Ticker.leastPeriod period := by
  have key : ∀ s : Shift (Tracked π), s.Sound ∧ s.Patient ∧
      s.worker.ticker.period = max Time.Ticker.leastPeriod period →
      ∀ s', Step Tracked.book s s' → s'.Sound ∧ s'.Patient ∧
        s'.worker.ticker.period = max Time.Ticker.leastPeriod period := by
    rintro s ⟨hsound, hpatient, hperiod⟩ s' hstep
    exact ⟨hsound.step hstep, hpatient.step hsound hstep, (period_step hstep).trans hperiod⟩
  exact (run_induction Tracked.book r period
    ⟨sound_start r period, patient_start r period, rfl⟩ (fun s s' h => key s h s') events).2

/-- **A request to wait is heeded unless another immediate entry is asked to wait as well.**  In
every run, an entry that is asked to wait is not tried again before the end of the request, but for
one case: a period after the end of a later request that another immediate entry gets, it may be.
Whenever this is before the end of its own request, there is a run that tries it again just then. -/
theorem backoff_unless_overtaken (r : Int) (period : Nat) :
    (∀ (events : List (Occasion π)) (later between before : Log (Tracked π))
      (a b : Deed (Tracked π)) (wait : Nat),
      ((start r period).run Tracked.book events).log = later ++ b :: (between ++ a :: before) →
      a.Delays wait → b.turn = .sent → b.item.number = a.item.number →
      a.time + wait ≤ b.time ∨
      ∃ c ∈ between, ∃ q, c.Delays q ∧ c.item.origin.delay = false ∧
        c.item.number ≠ a.item.number ∧
        c.time + q + max Time.Ticker.leastPeriod period ≤ b.time) ∧
    ∀ (u v : Unit π) (wait s q : Nat), u.retryCount + 1 < u.maxRetry →
      v.retryCount + 1 < v.maxRetry → 0 < q →
      s + q + max Time.Ticker.leastPeriod period < wait →
      ∃ (between before : Log (Tracked π)) (a b : Deed (Tracked π)),
        ((start r period).run Tracked.book (overtaking u v period wait s q)).log =
          b :: (between ++ a :: before) ∧
        a.Delays wait ∧ b.turn = .sent ∧ b.item.number = a.item.number ∧
        b.item.index = a.item.index ∧
        b.time = s + q + max Time.Ticker.leastPeriod period ∧ b.time < a.time + wait := by
  refine ⟨fun events later between before a b wait hlog ha hb hnumber => ?_,
    fun u v wait s q hu hv hq hearly => ?_⟩
  · obtain ⟨hpatient, hperiod⟩ := patient_run r period events
    have hcalls := hpatient.calls
    rw [hlog, hperiod] at hcalls
    have htime := hcalls.le_time hb
    rw [hnumber] at htime
    rcases le_notBefore ha with hwaited | ⟨c, hc, q, hq, hdelay, hne, hle⟩
    · exact .inl (Nat.le_trans hwaited htime)
    · have hmem : c ∈ ((start r period).run Tracked.book events).log := by
        rw [hlog]
        simp [hc]
      have horigin := ((sound_run r period events).log c hmem).delay
      exact .inr ⟨c, hc, q, hq, horigin.symm.trans hdelay, hne, Nat.le_trans hle htime⟩
  · have hwait : 0 < wait := by omega
    let x := Tracked.book 0 r ⟨[u], false⟩
    let y := Tracked.book 1 r ⟨[v], false⟩
    let y' := (y.answer (.rateLimited q)).1
    refine ⟨[⟨.finished, s + q, r, (y'.answer .delivered).1⟩,
        ⟨.answered .delivered, s + q, r, y'⟩, ⟨.sent, s + q, r, y'⟩,
        ⟨.answered (.rateLimited q), s, r, y⟩, ⟨.sent, s, r, y⟩, ⟨.accepted, s, r, y⟩],
      [⟨.sent, 0, r, x⟩, ⟨.accepted, 0, r, x⟩], ⟨.answered (.rateLimited wait), 0, r, x⟩,
      ⟨.sent, s + q + max Time.Ticker.leastPeriod period, r, (x.answer (.rateLimited wait)).1⟩,
      run_overtaking r period hu hv hwait hq, ⟨rfl, hwait, u, [], rfl, hu⟩, rfl, rfl, ?_, rfl, ?_⟩
    · simp [Tracked.index, Tracked.answer]
    · rw [Nat.zero_add]
      exact hearly

end Shift

end Courier.Delivery

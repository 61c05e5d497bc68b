import Courier.Proofs.Routing.Denotation
import Courier.Proofs.Time.Elapsed

/-!
When routed tasks are published.

An `Office` is the router of a service with the shutdown signal and a record of what has been
published, each message with the reading of the running clock.  A run hands it tasks, each with a
reading of the wall clock of its own, lets time pass, and may bring the shutdown.

The resolution of the running clock is a parameter.  At a millisecond the office settles and waits as
the service does (`Office.settle_ofService`, `Office.act_ofService`).  A timer counts whole readings,
so it ends just when its wait does if the resolution divides the wait (`Router.Exact`), as it always
does at a nanosecond.

Handling a task publishes its message or puts it off, and the two together are what the task calls for
(`Router.published_append_deferred`).  One stretch of time publishes what becomes due in it, each
message at the reading at which it is due (`Office.advanceUntil_spec`).  The invariant that carries the
runs is `Office.Timely`: nothing that waits is due.  It needs every wait to take time
(`Router.Waits`), which leap seconds can spoil.  By induction over a run the record then holds just
what the tasks of the run call for (`Office.record_run`).

Main statement: every notification in time is published once, immediately or, unless the shutdown
comes first, when it is due; outside of leap seconds that is the first reading at which the wall clock
shows that it may be handled, and for a timer that ends just when its wait does it is before the
deadline (`Office.published_in_window`).  Leap seconds are a true exception
(`Office.not_punctual_leap`).
-/

namespace Courier

open Time

/-! ### Readings of the earliest -/

/-- The earliest of some readings is one of them, and not after any of them. -/
theorem Time.earliest?_spec (ts : List Nat) :
    (earliest? (ts.map some) = none → ts = []) ∧
      ∀ e, earliest? (ts.map some) = some e → e ∈ ts ∧ ∀ t ∈ ts, e ≤ t := by
  induction ts with
  | nil => exact ⟨fun _ => rfl, nofun⟩
  | cons t ts ih =>
    have hcons : earliest? ((t :: ts).map some) = earlier? (some t) (earliest? (ts.map some)) := rfl
    rw [hcons]
    obtain ⟨hnone, hsome⟩ := ih
    rcases hrest : earliest? (ts.map some) with - | r
    · obtain rfl := hnone hrest
      refine ⟨nofun, fun e he => ?_⟩
      obtain rfl : t = e := Option.some.inj he
      exact ⟨List.mem_singleton_self _, fun u hu => Nat.le_of_eq (List.mem_singleton.mp hu).symm⟩
    · obtain ⟨hmem, hle⟩ := hsome r hrest
      refine ⟨nofun, fun e he => ?_⟩
      obtain rfl : min t r = e := Option.some.inj he
      refine ⟨?_, List.forall_mem_cons.mpr ⟨Nat.min_le_left t r, fun u hu => ?_⟩⟩
      · rcases Nat.le_total t r with h | h
        · rw [Nat.min_eq_left h]
          exact List.mem_cons_self
        · rw [Nat.min_eq_right h]
          exact List.mem_cons_of_mem _ hmem
      · exact Nat.le_trans (Nat.min_le_right t r) (hle u hu)

namespace Router

/-! ### Timers -/

/-- The readings of a clock of some resolution that make up some nanoseconds, or a little more. -/
def wholeReadings (resolution nanos : Nat) : Nat := (nanos + (resolution - 1)) / resolution

theorem wholeReadings_le_iff {resolution : Nat} (h : 0 < resolution) (nanos readings : Nat) :
    wholeReadings resolution nanos ≤ readings ↔ nanos ≤ readings * resolution := by
  rw [wholeReadings, Nat.div_le_iff_le_mul_add_pred h, Nat.mul_comm resolution]
  omega

/-- How long a task waits that is handled while the wall clock shows an instant, in nanoseconds. -/
def wait (t : QueuedTask) (now : Instant) : Nat := (t.processAt.since now).toNat

/-- The reading at which the message of a task is published that is handled at a moment. -/
def dueReading (resolution : Nat) (t : QueuedTask) (m : Moment) : Nat :=
  if m.wall < t.processAt then m.elapsed + wholeReadings resolution (wait t m.wall)
  else m.elapsed

/-- The wall clock at a later reading of the running clock. -/
def wallAt (resolution : Nat) (m : Moment) (reading : Nat) : Instant :=
  m.wall.plus ((reading - m.elapsed) * resolution)

/-- Whether the timer of a task ends just when its wait does.  With a resolution of a nanosecond every
timer does. -/
def Exact (resolution : Nat) (t : QueuedTask) (m : Moment) : Prop :=
  m.wall < t.processAt → resolution ∣ wait t m.wall

theorem exact_of_nanosecond (t : QueuedTask) (m : Moment) : Exact 1 t m :=
  fun _ => Nat.one_dvd _

/-- Whether a reading is the right one for a task that is handled at a moment.

* `first`: it is the first at which the wall clock shows that the task may be handled.
* `exact`: if the timer ends just when the wait does, the wall clock shows just that instant.
* `inTime`: then the deadline has not come, unless it comes before the task may be handled. -/
structure Punctual (resolution : Nat) (t : QueuedTask) (m : Moment) (reading : Nat) : Prop where
  first : ∀ r, m.elapsed ≤ r → (max t.processAt m.wall ≤ wallAt resolution m r ↔ reading ≤ r)
  exact : Exact resolution t m → wallAt resolution m reading = max t.processAt m.wall
  inTime : Exact resolution t m → ∀ deadline, t.deadline = some deadline →
    max t.processAt m.wall < deadline → wallAt resolution m reading < deadline

theorem wallAt_elapsed (resolution : Nat) {m : Moment} (h : m.wall.Ordinary) :
    wallAt resolution m m.elapsed = m.wall := by
  obtain ⟨hordinary, htotal⟩ := h.total_plus 0
  have hzero : wallAt resolution m m.elapsed = m.wall.plus 0 := by
    simp only [wallAt, Nat.sub_self, Nat.zero_mul]
  rw [hzero]
  exact hordinary.eq_of_total h (by omega)

/-- Outside of leap seconds every task is published at the right reading. -/
theorem punctual {resolution : Nat} (hresolution : 0 < resolution) {t : QueuedTask} {m : Moment}
    (ht : t.processAt.Ordinary) (hm : m.wall.Ordinary) :
    Punctual resolution t m (dueReading resolution t m) := by
  have hfirst : ∀ r, m.elapsed ≤ r →
      (max t.processAt m.wall ≤ wallAt resolution m r ↔ dueReading resolution t m ≤ r) := by
    intro r hr
    obtain ⟨hordinary, htotal⟩ := hm.total_plus ((r - m.elapsed) * resolution)
    rw [wallAt]
    by_cases hlt : m.wall < t.processAt
    · -- what is left of the wait is counted in whole readings
      have hwait := ht.since_eq hm
      rw [max_eq_left (le_of_lt hlt), ht.le_iff hordinary, htotal, dueReading, if_pos hlt]
      rw [hm.lt_iff ht] at hlt
      have hreadings := wholeReadings_le_iff hresolution (wait t m.wall) (r - m.elapsed)
      rw [wait] at hreadings ⊢
      omega
    · -- the task may be handled at once
      rw [max_eq_right (not_lt.mp hlt), hm.le_iff hordinary, htotal, dueReading, if_neg hlt]
      omega
  have hexact : Exact resolution t m →
      wallAt resolution m (dueReading resolution t m) = max t.processAt m.wall := by
    intro hexact
    by_cases hlt : m.wall < t.processAt
    · -- the readings of an exact timer make up the wait
      have hreadings : wholeReadings resolution (wait t m.wall) * resolution = wait t m.wall := by
        obtain ⟨k, hk⟩ := hexact hlt
        have hle := (wholeReadings_le_iff hresolution (wait t m.wall) k).mpr
          (by rw [hk, Nat.mul_comm])
        have hge := (wholeReadings_le_iff hresolution (wait t m.wall) _).mp (Nat.le_refl _)
        refine Nat.le_antisymm ?_ hge
        calc wholeReadings resolution (wait t m.wall) * resolution
            ≤ k * resolution := Nat.mul_le_mul_right resolution hle
          _ = wait t m.wall := by rw [hk, Nat.mul_comm]
      rw [max_eq_left (le_of_lt hlt), wallAt, dueReading, if_pos hlt, Nat.add_sub_cancel_left,
        hreadings]
      exact ht.plus_since hm (le_of_lt hlt)
    · rw [max_eq_right (not_lt.mp hlt), dueReading, if_neg hlt, wallAt_elapsed resolution hm]
  exact ⟨hfirst, hexact, fun h deadline _ hlt => (hexact h).symm ▸ hlt⟩

/-! ### What a task calls for -/

/-- The message that a task carries, if it is a notification to a chat. -/
def message? (t : QueuedTask) : Option Message :=
  if t.name = notifyTask then
    (Message.ofText t.payload).toOption.filter fun message => message.chatId.isSome
  else none

/-- What a task calls for that is handled at a moment, when what waits is kept up to a reading: its
message, if it comes before the deadline, and if nothing has ended the waiting. -/
def publication (resolution limit : Nat) (t : QueuedTask) (m : Moment) : Option (Nat × Message) :=
  (message? t).bind fun message =>
    if (t.deadline.all fun deadline => max t.processAt m.wall < deadline) ∧
        (m.wall < t.processAt → dueReading resolution t m ≤ limit) then
      some (dueReading resolution t m, message)
    else none

/-- The message that waits after a task has been handled, if there is one. -/
def deferredAt (resolution : Nat) (t : QueuedTask) (m : Moment) : List (Nat × Message) :=
  match verdict t m.wall with
  | .ok (.postpone _ message wait) => [(m.elapsed + wholeReadings resolution wait, message)]
  | _ => []

/-- The messages that an event publishes, and the router afterwards, under a running clock of some
resolution. -/
def stepAt (resolution : Nat) (r : Router) : Event → List Message × Router
  | .handle t m => (published t m, ⟨r.waiting ++ deferredAt resolution t m⟩)
  | .release now => r.release now
  | .cancel => ([], {})

/-- A router counts milliseconds. -/
theorem stepAt_millis (r : Router) (e : Event) : r.stepAt nanosPerMilli e = r.step e := by
  cases e with
  | handle t m =>
    rw [step, handle_eq]
    rfl
  | release now => rfl
  | cancel => rfl

theorem later_eq_max (a b : Instant) : a.later b = max a b := by
  unfold Instant.later
  split
  · rename_i h
    exact (max_eq_right h).symm
  · rename_i h
    exact (max_eq_left (le_of_lt (not_le.mp h))).symm

theorem isLate_eq (t : QueuedTask) (now : Instant) :
    isLate t now = !(t.deadline.all fun deadline => max t.processAt now < deadline) := by
  unfold isLate dueAt
  rw [later_eq_max]
  rcases t.deadline with - | deadline
  · rfl
  · simp [← not_lt]

/-- Handling a task publishes what it calls for at once, and keeps what it calls for later. -/
theorem published_append_deferred (resolution limit : Nat) (t : QueuedTask) (m : Moment) :
    (published t m).map (m.elapsed, ·) ++ (deferredAt resolution t m).filter (·.1 ≤ limit) =
      (publication resolution limit t m).toList := by
  by_cases hname : t.name = notifyTask
  case neg => simp [published, deferredAt, publication, message?, verdict, hname]
  rcases hm : Message.ofText t.payload with e | message
  · -- no message, so nothing is called for, in time or not
    have hmessage : message? t = none := by simp [message?, hname, hm, Except.toOption]
    rcases hlate : isLate t m.wall <;>
      simp [published, deferredAt, publication, hmessage, verdict, hname, hm, hlate]
  rcases hc : message.chatId with - | c
  · -- a message to nobody
    have hmessage : message? t = none := by simp [message?, hname, hm, hc, Except.toOption]
    rcases hlate : isLate t m.wall <;>
      simp [published, deferredAt, publication, hmessage, verdict, hname, hm, hc, hlate]
  have hmessage : message? t = some message := by
    simp [message?, hname, hm, hc, Except.toOption]
  rw [published, deferredAt, publication, hmessage, verdict_of_ofText hname hm hc, isLate_eq,
    Option.bind_some]
  rcases hdeadline : t.deadline.all fun deadline => max t.processAt m.wall < deadline
  · simp
  · -- in time: at once, or when the timer goes off
    by_cases hlt : m.wall < t.processAt
    · by_cases hlimit :
          m.elapsed + wholeReadings resolution (t.processAt.since m.wall).toNat ≤ limit <;>
        simp [hlt, dueReading, wait, hlimit]
    · simp [hlt, dueReading]

/-- Whether a task that is put off waits at all. -/
def Waits (t : QueuedTask) (m : Moment) : Prop :=
  m.wall < t.processAt → 0 < wait t m.wall

theorem waits_of_ordinary {t : QueuedTask} {m : Moment} (ht : t.processAt.Ordinary)
    (hm : m.wall.Ordinary) : Waits t m := by
  intro hlt
  rw [wait, ht.since_eq hm]
  rw [hm.lt_iff ht] at hlt
  omega

theorem wait_of_verdict {t : QueuedTask} {now : Instant} {c : Int} {message : Message} {nanos : Nat}
    (h : verdict t now = .ok (.postpone c message nanos)) :
    now < t.processAt ∧ nanos = wait t now := by
  have hchat := ofText_of_verdict h (.inr ⟨nanos, rfl⟩)
  unfold verdict at h
  split at h
  case isTrue => cases h
  split at h
  case isTrue => cases h
  rw [hchat.1] at h
  simp only [hchat.2] at h
  split at h
  · rename_i hlt
    cases h
    exact ⟨hlt, rfl⟩
  · cases h

/-- A task that is put off is due later than it is handled. -/
theorem lt_dueReading {resolution : Nat} (hresolution : 0 < resolution) {t : QueuedTask} {m : Moment}
    (h : Waits t m) (hlt : m.wall < t.processAt) : m.elapsed < dueReading resolution t m := by
  have hwait := h hlt
  have hnone := wholeReadings_le_iff hresolution (wait t m.wall) 0
  rw [dueReading, if_pos hlt]
  omega

theorem publication_congr {resolution limit limit' : Nat} (hresolution : 0 < resolution)
    {t : QueuedTask} {m : Moment} (h : Waits t m) (hlimit : limit ≤ m.elapsed)
    (hlimit' : limit' ≤ m.elapsed) :
    publication resolution limit t m = publication resolution limit' t m := by
  have hsame : (m.wall < t.processAt → dueReading resolution t m ≤ limit) ↔
      (m.wall < t.processAt → dueReading resolution t m ≤ limit') := by
    refine forall_congr' fun hlt => ?_
    have hlater := lt_dueReading hresolution h hlt
    omega
  simp only [publication, hsame]

theorem lt_of_mem_deferredAt {resolution : Nat} (hresolution : 0 < resolution) {t : QueuedTask}
    {m : Moment} (h : Waits t m) {w : Nat × Message} (hw : w ∈ deferredAt resolution t m) :
    m.elapsed < w.1 := by
  unfold deferredAt at hw
  split at hw
  · rename_i c message nanos hverdict
    obtain rfl := List.mem_singleton.mp hw
    obtain ⟨hlt, rfl⟩ := wait_of_verdict hverdict
    have hlater := lt_dueReading hresolution h hlt
    rwa [dueReading, if_pos hlt] at hlater
  · cases hw

end Router

/-! ### The office -/

/-- A router, whether the shutdown has been signalled, and the messages that have been published, each
with the reading of the running clock.  The resolution is the number of nanoseconds between two
readings. -/
structure Office where
  router : Router := {}
  ended : Bool := false
  record : List (Nat × Message) := []
  resolution : Nat := nanosPerMilli

namespace Office

/-- Lets something happen to the router at a reading of the running clock. -/
def act (o : Office) (reading : Nat) (e : Router.Event) : Office :=
  { o with
    router := (o.router.stepAt o.resolution e).2
    record := o.record ++ (o.router.stepAt o.resolution e).1.map (reading, ·) }

/-- What happens to the messages that wait: they are looked at, or dropped after the shutdown. -/
def waitingEvent (o : Office) (m : Moment) : Router.Event :=
  if o.ended then .cancel else .release m.elapsed

instance : Timed Office where
  settle m o := o.act m.elapsed (o.waitingEvent m)
  next? o := o.router.next?

/-- The office of a service, when some messages have been published. -/
def ofService {σ : Type} (s : Service σ) (record : List (Nat × Message)) : Office :=
  { router := s.router, ended := s.dispatcher.signal.raised, record }

/-- What a service does with the messages that wait is what its office does, and what the office
records goes to the bus. -/
theorem settle_ofService {σ : Type} (s : Service σ) (record : List (Nat × Message)) (m : Moment) :
    ∃ ms : List Message,
      Timed.settle m (ofService s record) =
          ofService (s.settleWaiting m) (record ++ ms.map (m.elapsed, ·)) ∧
        (s.settleWaiting m).dispatcher.bus =
          ms.foldl (fun b message => (b.publish message).2) s.dispatcher.bus := by
  refine ⟨(s.router.step (s.waitingEvent m)).1, ?_, ?_⟩
  · rw [Service.settleWaiting_eq, ← Router.stepAt_millis]
    rfl
  · rw [Service.settleWaiting_eq]
    rfl

theorem act_ofService {σ : Type} (s : Service σ) (record : List (Nat × Message)) (t : QueuedTask)
    (m : Moment) :
    ∃ ms : List Message,
      (ofService s record).act m.elapsed (.handle t m) =
          ofService (s.route t m).2 (record ++ ms.map (m.elapsed, ·)) ∧
        (s.route t m).2.dispatcher.bus =
          ms.foldl (fun b message => (b.publish message).2) s.dispatcher.bus := by
  refine ⟨(s.router.step (.handle t m)).1, ?_, ?_⟩
  · rw [Service.route_eq, ← Router.stepAt_millis]
    rfl
  · rw [Service.route_eq]
    rfl

/-! ### Time that passes -/

variable {o : Office} {m : Moment}

theorem next?_eq (o : Office) :
    Timed.next? o = earliest? ((o.router.waiting.map Prod.fst).map some) := by
  rw [List.map_map]
  rfl

/-- After the shutdown nothing waits. -/
theorem settle_of_ended (h : o.ended = true) :
    Timed.settle m o = { o with router := {} } := by
  have hevent : o.waitingEvent m = .cancel := if_pos h
  show o.act m.elapsed (o.waitingEvent m) = _
  rw [hevent]
  simp [act, Router.stepAt]

/-- Before it, what is due is published, at its own reading if none is overdue. -/
theorem settle_spec (h : o.ended = false) (hdue : ∀ w ∈ o.router.waiting, m.elapsed ≤ w.1) :
    (Timed.settle m o).ended = false ∧
      (Timed.settle m o).router.waiting = o.router.waiting.filter (m.elapsed < ·.1) ∧
      (Timed.settle m o).record.Perm (o.record ++ o.router.waiting.filter (·.1 ≤ m.elapsed)) := by
  have hevent : o.waitingEvent m = .release m.elapsed := if_neg (by simp [h])
  have hsettle : Timed.settle m o = o.act m.elapsed (.release m.elapsed) := by
    show o.act m.elapsed (o.waitingEvent m) = _
    rw [hevent]
  rw [hsettle]
  refine ⟨h, ?_, ?_⟩
  · refine (Router.release_waiting o.router m.elapsed).trans (List.filter_congr fun w _ => ?_)
    rw [← decide_not, decide_eq_decide]
    exact Nat.not_le
  · refine List.Perm.append_left o.record ?_
    refine ((Router.release_perm o.router m.elapsed).map _).trans (List.Perm.of_eq ?_)
    rw [List.map_map]
    refine (List.map_congr_left fun w hw => ?_).trans (List.map_id _)
    obtain ⟨hw, hle⟩ := List.mem_filter.mp hw
    exact Prod.ext (Nat.le_antisymm (hdue w hw) (of_decide_eq_true hle)) rfl

/-- What is due by a reading was due by an earlier one, or it is due between them. -/
theorem filter_split (ws : List (Nat × Message)) {a b : Nat} (h : a ≤ b) :
    (ws.filter (·.1 ≤ a) ++ (ws.filter (a < ·.1)).filter (·.1 ≤ b)).Perm
      (ws.filter (·.1 ≤ b)) := by
  have hsplit := List.filter_append_perm (fun w : Nat × Message => decide (w.1 ≤ a))
    (ws.filter (·.1 ≤ b))
  rw [List.filter_filter, List.filter_filter] at hsplit
  refine List.Perm.trans (List.Perm.of_eq ?_) hsplit
  rw [List.filter_filter]
  congr 1
  · refine List.filter_congr fun w _ => ?_
    rw [← Bool.decide_and, decide_eq_decide]
    omega
  · refine List.filter_congr fun w _ => ?_
    rw [← decide_not, ← Bool.decide_and, ← Bool.decide_and, decide_eq_decide]
    omega

theorem filter_later (ws : List (Nat × Message)) {a b : Nat} (h : a ≤ b) :
    (ws.filter (a < ·.1)).filter (b < ·.1) = ws.filter (b < ·.1) := by
  rw [List.filter_filter]
  refine List.filter_congr fun w _ => ?_
  rw [← Bool.decide_and, decide_eq_decide]
  omega

/-- What has been settled at once and what happens to the rest are what happens to all. -/
theorem combine (h : o.ended = false) (hdue : ∀ w ∈ o.router.waiting, m.elapsed ≤ w.1) {stop : Nat}
    (hstop : m.elapsed ≤ stop) {o' : Office}
    (hwaiting : o'.router.waiting = (Timed.settle m o).router.waiting.filter (stop < ·.1))
    (hrecord : o'.record.Perm ((Timed.settle m o).record ++
      (Timed.settle m o).router.waiting.filter (·.1 ≤ stop))) :
    o'.router.waiting = o.router.waiting.filter (stop < ·.1) ∧
      o'.record.Perm (o.record ++ o.router.waiting.filter (·.1 ≤ stop)) := by
  obtain ⟨-, hleft, hpublished⟩ := settle_spec h hdue
  constructor
  · rw [hwaiting, hleft, filter_later _ hstop]
  · refine hrecord.trans ((hpublished.append_right _).trans ?_)
    rw [List.append_assoc, hleft]
    exact (filter_split o.router.waiting hstop).append_left o.record

/-- A stretch of time publishes what is due in it, each message at its own reading. -/
theorem advanceUntil_spec (stop : Nat) (m : Moment) (o : Office) (h : o.ended = false)
    (hdue : ∀ w ∈ o.router.waiting, m.elapsed ≤ w.1) (hstop : m.elapsed ≤ stop) :
    (Timed.advanceUntil (fun _ => false) stop m o).1.ended = false ∧
      (Timed.advanceUntil (fun _ => false) stop m o).1.router.waiting =
        o.router.waiting.filter (stop < ·.1) ∧
      (Timed.advanceUntil (fun _ => false) stop m o).1.record.Perm
        (o.record ++ o.router.waiting.filter (·.1 ≤ stop)) := by
  fun_induction Timed.advanceUntil (fun _ => false) stop m o with
  | case1 m o s hdone => cases hdone
  | case2 m o s hdone hnone =>
    -- nothing waits any longer
    rw [next?_eq] at hnone
    have hempty : s.router.waiting = [] :=
      List.map_eq_nil_iff.mp ((earliest?_spec _).1 hnone)
    refine ⟨(settle_spec h hdue).1, combine h hdue hstop ?_ ?_⟩
    · show s.router.waiting = s.router.waiting.filter _
      rw [hempty]
      rfl
    · show s.record.Perm (s.record ++ s.router.waiting.filter _)
      rw [hempty, List.filter_nil, List.append_nil]
  | case3 m o s hdone t hnext hlt ih =>
    rw [next?_eq] at hnext
    have hearliest := ((earliest?_spec _).2 t hnext).2
    obtain ⟨hended, hwaiting, hrecord⟩ := ih (settle_spec h hdue).1
      (fun w hw => hearliest w.1 (List.mem_map_of_mem hw)) hlt.2
    exact ⟨hended, combine h hdue hstop hwaiting hrecord⟩
  | case4 m o s hdone t hnext hlt =>
    -- the next message is due after the end
    rw [next?_eq] at hnext
    obtain ⟨hmem, hearliest⟩ := (earliest?_spec _).2 t hnext
    obtain ⟨hended, hleft, -⟩ := settle_spec h hdue
    have hlate : ∀ w ∈ s.router.waiting, stop < w.1 := by
      intro w hw
      obtain ⟨v, hv, rfl⟩ := List.mem_map.mp hmem
      have hv' : v ∈ o.router.waiting.filter (m.elapsed < ·.1) := hleft ▸ hv
      have hlater : m.elapsed < v.1 := of_decide_eq_true (List.mem_filter.mp hv').2
      have hle := hearliest w.1 (List.mem_map_of_mem hw)
      omega
    refine ⟨hended, combine h hdue hstop ?_ ?_⟩
    · exact (List.filter_eq_self.mpr fun w hw => decide_eq_true (hlate w hw)).symm
    · have hnone : s.router.waiting.filter (·.1 ≤ stop) = [] := by
        refine List.filter_eq_nil_iff.mpr fun w hw hle => ?_
        exact absurd (hlate w hw) (Nat.not_lt.mpr (of_decide_eq_true hle))
      show s.record.Perm (s.record ++ s.router.waiting.filter _)
      rw [hnone, List.append_nil]

/-- The resolution of the running clock is not changed. -/
theorem resolution_advanceUntil (stop : Nat) (m : Moment) (o : Office) :
    (Timed.advanceUntil (fun _ => false) stop m o).1.resolution = o.resolution := by
  fun_induction Timed.advanceUntil (fun _ => false) stop m o with
  | case1 m o s hdone => cases hdone
  | case2 m o s hdone hnone => rfl
  | case3 m o s hdone t hnext hlt ih => exact ih
  | case4 m o s hdone t hnext hlt => rfl

theorem advanceUntil_of_ended (stop : Nat) (m : Moment) (h : o.ended = true) :
    (Timed.advanceUntil (fun _ => false) stop m o).1 = { o with router := {} } := by
  have hnext : Timed.next? ({ o with router := {} } : Office) = none := rfl
  rw [Timed.advanceUntil, settle_of_ended h]
  simp only [Bool.false_eq_true, if_false, hnext]

/-! ### Runs -/

/-- What may happen to an office.

* `handle`: a task is handled while the wall clock shows an instant.
* `shutdown`: the shutdown is signalled.
* `pass`: some readings of the running clock go by. -/
inductive Event
  | handle (task : QueuedTask) (now : Instant)
  | shutdown
  | pass (readings : Nat)

/-- An office after an event.  Of its own moment only the reading counts: every task has an instant of
the wall clock with it. -/
def step (c : Clocked Office) : Event → Clocked Office
  | .handle t now =>
    c.modify fun o => o.act c.moment.elapsed (.handle t ⟨c.moment.elapsed, now⟩)
  | .shutdown => c.modify fun o => Timed.settle c.moment { o with ended := true }
  | .pass readings => c.pass readings

theorem resolution_step (c : Clocked Office) (e : Event) :
    (step c e).system.resolution = c.system.resolution := by
  cases e with
  | handle t now => rfl
  | shutdown => rfl
  | pass readings => exact resolution_advanceUntil _ _ _

/-- An office after a run. -/
def run (c : Clocked Office) (events : List Event) : Clocked Office := events.foldl step c

/-- The tasks that are handled in a run that begins at a reading, each with its moment. -/
def handled (elapsed : Nat) : List Event → List (QueuedTask × Moment)
  | [] => []
  | .handle t now :: events => (t, ⟨elapsed, now⟩) :: handled elapsed events
  | .shutdown :: events => handled elapsed events
  | .pass readings :: events => handled (elapsed + readings) events

/-- Up to which reading a run keeps what waits: to the shutdown, or else to its end. -/
def limit (elapsed : Nat) : List Event → Nat
  | [] => elapsed
  | .handle _ _ :: events => limit elapsed events
  | .shutdown :: _ => elapsed
  | .pass readings :: events => limit (elapsed + readings) events

theorem le_limit (events : List Event) : ∀ elapsed, elapsed ≤ limit elapsed events := by
  induction events with
  | nil => exact fun elapsed => Nat.le_refl elapsed
  | cons e events ih =>
    intro elapsed
    cases e with
    | handle t now => exact ih elapsed
    | shutdown => exact Nat.le_refl elapsed
    | pass readings =>
      exact Nat.le_trans (Nat.le_add_right elapsed readings) (ih (elapsed + readings))

theorem le_of_mem_handled (events : List Event) :
    ∀ elapsed, ∀ h ∈ handled elapsed events, elapsed ≤ h.2.elapsed := by
  induction events with
  | nil => simp [handled]
  | cons e events ih =>
    intro elapsed h hh
    cases e with
    | handle t now =>
      rcases List.mem_cons.mp hh with rfl | hh
      · exact Nat.le_refl elapsed
      · exact ih elapsed h hh
    | shutdown => exact ih elapsed h hh
    | pass readings =>
      exact Nat.le_trans (Nat.le_add_right elapsed readings) (ih (elapsed + readings) h hh)

/-- What the tasks of a run call for, in the order in which they are handled. -/
def called (resolution limit : Nat) (tasks : List (QueuedTask × Moment)) : List (Nat × Message) :=
  tasks.filterMap fun h => Router.publication resolution limit h.1 h.2

theorem called_cons (resolution limit : Nat) (t : QueuedTask) (m : Moment)
    (tasks : List (QueuedTask × Moment)) :
    called resolution limit ((t, m) :: tasks) =
      (Router.publication resolution limit t m).toList ++ called resolution limit tasks := by
  rw [called, List.filterMap_cons]
  rcases Router.publication resolution limit t m <;> rfl

/-- For tasks that are handled later it does not matter when the waiting has ended. -/
theorem called_congr {resolution : Nat} (hresolution : 0 < resolution) {elapsed limit limit' : Nat}
    (h : limit ≤ elapsed) (h' : limit' ≤ elapsed) {events : List Event}
    (hwaits : ∀ x ∈ handled elapsed events, Router.Waits x.1 x.2) :
    called resolution limit (handled elapsed events) =
      called resolution limit' (handled elapsed events) := by
  refine List.filterMap_congr fun x hx => ?_
  have hle := le_of_mem_handled events elapsed x hx
  exact Router.publication_congr hresolution (hwaits x hx) (Nat.le_trans h hle)
    (Nat.le_trans h' hle)

theorem filter_eq_nil_of_lt {ws : List (Nat × Message)} {elapsed limit : Nat}
    (hws : ∀ w ∈ ws, elapsed < w.1) (h : limit ≤ elapsed) : ws.filter (·.1 ≤ limit) = [] := by
  refine List.filter_eq_nil_iff.mpr fun w hw hle => ?_
  have hlt := hws w hw
  have hle := of_decide_eq_true hle
  omega

/-- Up to which reading a run keeps what waits at its beginning: after the shutdown not at all. -/
def keptUntil (c : Clocked Office) (events : List Event) : Nat :=
  if c.system.ended then 0 else limit c.moment.elapsed events

theorem keptUntil_of_ended {c : Clocked Office} (h : c.system.ended = true) (events : List Event) :
    keptUntil c events = 0 :=
  if_pos h

theorem keptUntil_of_open {c : Clocked Office} (h : c.system.ended = false) (events : List Event) :
    keptUntil c events = limit c.moment.elapsed events :=
  if_neg (by simp [h])

theorem keptUntil_le_of_limit {c : Clocked Office} {events : List Event}
    (h : limit c.moment.elapsed events = c.moment.elapsed) :
    keptUntil c events ≤ c.moment.elapsed := by
  unfold keptUntil
  split
  · exact Nat.zero_le _
  · exact Nat.le_of_eq h

/-- What is still to be published in a run: what waits and is kept for long enough, and what the
tasks of the run call for. -/
def outstanding (c : Clocked Office) (events : List Event) : List (Nat × Message) :=
  c.system.router.waiting.filter (·.1 ≤ keptUntil c events) ++
    called c.system.resolution (keptUntil c events) (handled c.moment.elapsed events)

/-- Whether nothing waits that is due. -/
def Timely (c : Clocked Office) : Prop := ∀ w ∈ c.system.router.waiting, c.moment.elapsed < w.1

/-- A task that is handled publishes its message or adds it to those that wait. -/
theorem record_handle {c : Clocked Office} (hresolution : 0 < c.system.resolution) (h : Timely c)
    {t : QueuedTask} {now : Instant} (hwaits : Router.Waits t ⟨c.moment.elapsed, now⟩)
    (events : List Event) :
    Timely (step c (.handle t now)) ∧
      ((step c (.handle t now)).system.record ++
          outstanding (step c (.handle t now)) events).Perm
        (c.system.record ++ outstanding c (.handle t now :: events)) := by
  obtain ⟨o, m⟩ := c
  have hhandle : step ⟨o, m⟩ (.handle t now) =
      ⟨{ o with
          router := ⟨o.router.waiting ++ Router.deferredAt o.resolution t ⟨m.elapsed, now⟩⟩
          record := o.record ++ (Router.published t ⟨m.elapsed, now⟩).map (m.elapsed, ·) },
        m⟩ := rfl
  have hkept : keptUntil ⟨o, m⟩ (.handle t now :: events) =
      keptUntil (step ⟨o, m⟩ (.handle t now)) events := rfl
  constructor
  · -- what is put off is due later
    rw [hhandle]
    intro w hw
    rcases List.mem_append.mp hw with hw | hw
    · exact h w hw
    · exact Router.lt_of_mem_deferredAt hresolution hwaits hw
  · -- what is published and what is put off make up what the task calls for
    rw [outstanding, outstanding, ← hkept]
    generalize keptUntil ⟨o, m⟩ (.handle t now :: events) = kept
    rw [handled, called_cons, ← Router.published_append_deferred, hhandle]
    simp only [List.filter_append, List.append_assoc]
    exact (List.perm_append_comm_assoc _ _ _).append_left o.record

/-- The shutdown drops what waits, and what is put off later is never published. -/
theorem record_shutdown {c : Clocked Office} (hresolution : 0 < c.system.resolution) (h : Timely c)
    {events : List Event}
    (hwaits : ∀ x ∈ handled c.moment.elapsed events, Router.Waits x.1 x.2) :
    Timely (step c .shutdown) ∧
      ((step c .shutdown).system.record ++ outstanding (step c .shutdown) events).Perm
        (c.system.record ++ outstanding c (.shutdown :: events)) := by
  obtain ⟨o, m⟩ := c
  have hended : step ⟨o, m⟩ .shutdown = ⟨{ o with ended := true, router := {} }, m⟩ := by
    rw [step, Clocked.modify, settle_of_ended rfl]
  have hkept : keptUntil ⟨o, m⟩ (.shutdown :: events) ≤ m.elapsed := keptUntil_le_of_limit rfl
  -- all that is put off from here on is due after the shutdown
  have hsame : called o.resolution (keptUntil ⟨o, m⟩ (.shutdown :: events))
      (handled m.elapsed events) = called o.resolution 0 (handled m.elapsed events) :=
    called_congr hresolution hkept (Nat.zero_le m.elapsed) hwaits
  rw [hended]
  refine ⟨nofun, List.Perm.of_eq ?_⟩
  rw [outstanding, outstanding, filter_eq_nil_of_lt h hkept, handled, hsame,
    keptUntil_of_ended rfl]
  rfl

/-- Time that passes publishes what is due, until the shutdown. -/
theorem record_pass {c : Clocked Office} (h : Timely c) (readings : Nat) (events : List Event) :
    Timely (step c (.pass readings)) ∧
      ((step c (.pass readings)).system.record ++
          outstanding (step c (.pass readings)) events).Perm
        (c.system.record ++ outstanding c (.pass readings :: events)) := by
  obtain ⟨o, m⟩ := c
  cases hended : o.ended with
  | true =>
    -- after the shutdown nothing waits, and nothing is kept
    have hpass : step ⟨o, m⟩ (.pass readings) = ⟨{ o with router := {} }, m.later readings⟩ := by
      rw [step, Clocked.pass, Timed.advance, advanceUntil_of_ended _ _ hended]
    rw [hpass]
    refine ⟨nofun, List.Perm.of_eq ?_⟩
    rw [outstanding, outstanding, keptUntil_of_ended hended, keptUntil_of_ended hended,
      filter_eq_nil_of_lt h (Nat.zero_le _)]
    rfl
  | false =>
    -- what waits is split at the end of the stretch
    obtain ⟨hopen, hleft, hrecord⟩ := advanceUntil_spec (m.elapsed + readings) m o hended
      (fun w hw => Nat.le_of_lt (h w hw)) (Nat.le_add_right m.elapsed readings)
    have hpass : step ⟨o, m⟩ (.pass readings) =
        ⟨Timed.advance readings m o, m.later readings⟩ := rfl
    have hresolution : (Timed.advance readings m o).resolution = o.resolution :=
      resolution_advanceUntil _ m o
    rw [hpass]
    constructor
    · intro w hw
      have hw' : w ∈ o.router.waiting.filter (m.elapsed + readings < ·.1) := hleft ▸ hw
      exact of_decide_eq_true (List.mem_filter.mp hw').2
    · have hlimit : m.elapsed + readings ≤ limit (m.elapsed + readings) events :=
        le_limit events _
      have hsplit := filter_split o.router.waiting hlimit
      refine (hrecord.append_right _).trans ?_
      rw [outstanding, outstanding, keptUntil_of_open hopen, keptUntil_of_open hended, hresolution]
      let stop := limit (m.elapsed + readings) events
      let calls := called o.resolution stop (handled (m.elapsed + readings) events)
      show (o.record ++ o.router.waiting.filter (·.1 ≤ m.elapsed + readings) ++
        ((Timed.advance readings m o).router.waiting.filter (·.1 ≤ stop) ++ calls)).Perm
        (o.record ++ (o.router.waiting.filter (·.1 ≤ stop) ++ calls))
      rw [Timed.advance, hleft, List.append_assoc, ← List.append_assoc (List.filter _ _)]
      exact (hsplit.append_right _).append_left o.record

/-- What a run publishes is what waited before it and what its tasks call for. -/
theorem record_run (events : List Event) : ∀ c : Clocked Office, 0 < c.system.resolution →
    Timely c → (∀ x ∈ handled c.moment.elapsed events, Router.Waits x.1 x.2) →
      (run c events).system.record.Perm (c.system.record ++ outstanding c events) := by
  -- by induction on the events: at each step nothing that is due is left waiting
  induction events with
  | nil =>
    intro c _ h _
    rw [outstanding, filter_eq_nil_of_lt h (keptUntil_le_of_limit rfl)]
    show c.system.record.Perm (c.system.record ++ ([] ++ []))
    rw [List.append_nil, List.append_nil]
  | cons e events ih =>
    intro c hresolution h hwaits
    have hresolution' : 0 < (step c e).system.resolution :=
      (resolution_step c e).symm ▸ hresolution
    cases e with
    | handle t now =>
      obtain ⟨hfirst, hwaits⟩ := List.forall_mem_cons.mp hwaits
      obtain ⟨hnext, hstep⟩ := record_handle hresolution h hfirst events
      exact (ih _ hresolution' hnext hwaits).trans hstep
    | shutdown =>
      obtain ⟨hnext, hstep⟩ := record_shutdown hresolution h hwaits
      exact (ih _ hresolution' hnext hwaits).trans hstep
    | pass readings =>
      obtain ⟨hnext, hstep⟩ := record_pass h readings events
      exact (ih _ hresolution' hnext hwaits).trans hstep

/-! ### Windows -/

/-- Every notification is published once if it is in time and, when it has to wait, the shutdown
does not come first; nothing else is ever published.  Outside of leap seconds each is published at the
first reading at which the wall clock shows that it may be handled.  If its timer ends just when its
wait does, the wall clock then shows just the instant from which on it may be handled, and its deadline
has not come; with a resolution of a nanosecond every timer is of that kind
(`Router.exact_of_nanosecond`). -/
theorem published_in_window {resolution : Nat} (hresolution : 0 < resolution) (m : Moment)
    (events : List Event)
    (hordinary : ∀ x ∈ handled m.elapsed events, x.1.processAt.Ordinary ∧ x.2.wall.Ordinary) :
    (run ⟨{ resolution }, m⟩ events).system.record.Perm
        ((handled m.elapsed events).filterMap fun x =>
          Router.publication resolution (limit m.elapsed events) x.1 x.2) ∧
      ∀ x ∈ handled m.elapsed events,
        Router.Punctual resolution x.1 x.2 (Router.dueReading resolution x.1 x.2) := by
  constructor
  · have hwaits : ∀ x ∈ handled m.elapsed events, Router.Waits x.1 x.2 :=
      fun x hx => Router.waits_of_ordinary (hordinary x hx).1 (hordinary x hx).2
    exact record_run events ⟨{ resolution }, m⟩ hresolution nofun hwaits
  · intro x hx
    exact Router.punctual hresolution (hordinary x hx).1 (hordinary x hx).2

/-- A notification for chat 42, to be handled from an instant on and before a deadline. -/
def notification (processAt : Instant) (deadline : Option Instant) : QueuedTask :=
  ⟨none, 0, notifyTask, "[42,null,\"info.html\",\"hello\",false]", defaultQueue,
    defaultTaskMaxRetry, none, deadline, processAt, none, none, ⟨0, 0⟩⟩

/-- The message of that notification. -/
def hello : Message := ⟨some 42, none, "info.html", .string "hello", false⟩

/-- A notification that waits for half a millisecond more than thirty seconds and whose deadline comes
soon after, one that goes at once, one whose deadline comes first, a task of another name, and one that
is still waiting when the shutdown comes.  The running clock counts nanoseconds. -/
def evening : List Event :=
  [.handle (notification ⟨30, 500005⟩ (some ⟨30, 700005⟩)) ⟨0, 5⟩,
    .handle (notification ⟨0, 0⟩ none) ⟨9, 7⟩,
    .handle (notification ⟨30, 0⟩ (some ⟨30, 0⟩)) ⟨0, 5⟩,
    .handle { notification ⟨0, 0⟩ none with name := "feed:fetch" } ⟨9, 0⟩, .pass 1000000000,
    .handle (notification ⟨50, 0⟩ none) ⟨1, 0⟩, .pass 39000000000, .shutdown, .pass 60000000000]

theorem published_in_window_evening :
    let m : Moment := ⟨0, ⟨0, 5⟩⟩
    0 < 1 ∧ (∀ x ∈ handled m.elapsed evening, x.1.processAt.Ordinary ∧ x.2.wall.Ordinary) ∧
      (run ⟨{ resolution := 1 }, m⟩ evening).system.record.Perm [(30000500000, hello), (0, hello)] ∧
      Router.wallAt 1 m 30000500000 = ⟨30, 500005⟩ ∧
      Router.wallAt 1 m 30000500000 < ⟨30, 700005⟩ := by
  intro m
  let late : QueuedTask := notification ⟨30, 500005⟩ (some ⟨30, 700005⟩)
  have hordinary : ∀ x ∈ handled m.elapsed evening,
      x.1.processAt.Ordinary ∧ x.2.wall.Ordinary := by decide +kernel
  obtain ⟨hrecord, hpunctual⟩ := published_in_window Nat.one_pos m evening hordinary
  have hcalls : ((handled m.elapsed evening).filterMap fun x =>
      Router.publication 1 (limit m.elapsed evening) x.1 x.2) =
        [(30000500000, hello), (0, hello)] := by
    decide +kernel
  have hlate : Router.Punctual 1 late m (Router.dueReading 1 late m) :=
    hpunctual (late, m) List.mem_cons_self
  have hreading : Router.dueReading 1 late m = 30000500000 := by decide +kernel
  rw [hreading] at hlate
  have hexact := Router.exact_of_nanosecond late m
  exact ⟨Nat.one_pos, hordinary, hcalls ▸ hrecord, hlate.exact hexact,
    hlate.inTime hexact ⟨30, 700005⟩ rfl (by decide +kernel)⟩

/-- A notification within a leap second, with a deadline soon after it. -/
def leapNotification : QueuedTask :=
  notification ⟨1767225659, 1500000000⟩ (some ⟨1767225660, 200000000⟩)

/-- A notification for the beginning of a day. -/
def dayNotification : QueuedTask := notification ⟨1767312000, 0⟩ none

/-- The wait for an instant within a leap second counts the leap second, which the wall clock does
not show: such a notification comes late, and after its deadline.  The wait within a leap second for
the day that follows does not count it: such a notification comes before its time. -/
theorem not_punctual_leap :
    let m : Moment := ⟨0, ⟨1767225600, 0⟩⟩
    let dusk : Moment := ⟨0, ⟨1767311999, 1500000000⟩⟩
    ((run ⟨{}, m⟩ [.handle leapNotification m.wall, .pass 61000]).system.record =
        [(60500, hello)] ∧
      Router.Exact nanosPerMilli leapNotification m ∧
      ¬Router.Punctual nanosPerMilli leapNotification m 60500 ∧
      leapNotification.deadline.map (fun deadline =>
        (decide (max leapNotification.processAt m.wall < deadline),
          decide (deadline ≤ Router.wallAt nanosPerMilli m 60500))) = some (true, true)) ∧
    ((run ⟨{}, dusk⟩ [.handle dayNotification dusk.wall, .pass 1000]).system.record =
        [(0, hello)] ∧
      Router.Exact nanosPerMilli dayNotification dusk ∧
      Router.wallAt nanosPerMilli dusk 0 < dayNotification.processAt) := by
  intro m dusk
  constructor
  · -- the notification waits longer than the wall clock shows
    have hwaits : ∀ x ∈ handled m.elapsed [.handle leapNotification m.wall, .pass 61000],
        Router.Waits x.1 x.2 := by
      refine List.forall_mem_singleton.mpr fun _ => ?_
      decide +kernel
    have hrecord := record_run [.handle leapNotification m.wall, .pass 61000] ⟨{}, m⟩
      (by decide) nofun hwaits
    have hcalls : outstanding ⟨{}, m⟩ [.handle leapNotification m.wall, .pass 61000] =
        [(60500, hello)] := by
      decide +kernel
    have hexact : Router.Exact nanosPerMilli leapNotification m := fun _ => by decide +kernel
    refine ⟨List.perm_singleton.mp (hcalls ▸ hrecord), hexact, fun h => ?_, by decide +kernel⟩
    exact absurd (h.exact hexact) (by decide +kernel)
  · -- the notification waits, and is due at once
    let o := (step ⟨{}, dusk⟩ (.handle dayNotification dusk.wall)).system
    have hwaiting : o.router.waiting = [(0, hello)] := by decide +kernel
    have hnothing : o.record = [] := by decide +kernel
    have hdue : ∀ w ∈ o.router.waiting, dusk.elapsed ≤ w.1 := fun w _ => Nat.zero_le w.1
    obtain ⟨-, -, hrecord⟩ := advanceUntil_spec 1000 dusk o rfl hdue (Nat.zero_le 1000)
    rw [hwaiting, hnothing] at hrecord
    exact ⟨List.perm_singleton.mp hrecord, fun _ => by decide +kernel, by decide +kernel⟩

end Office

end Courier

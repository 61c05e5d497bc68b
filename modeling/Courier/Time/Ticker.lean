/-!
Tickers: events that come back after a period.

Times are milliseconds of a running clock.  A tick that is taken on time, or a little late, leaves
the ticks after it where they are; one that is taken later moves them, so that a full period lies
between it and the next one.
-/

namespace Courier.Time

/-- A period and the time of the next tick. -/
structure Ticker where
  period : Nat
  next : Nat
  period_pos : 0 < period
deriving DecidableEq

namespace Ticker

/-- The shortest period. -/
def leastPeriod : Nat := 1

/-- How late a tick may be taken without moving those after it. -/
def tolerance : Nat := 5

/-- A ticker whose first tick is due at some time; a period that is too short is raised. -/
def startingAt (next period : Nat) : Ticker :=
  ⟨max leastPeriod period, next, Nat.lt_of_lt_of_le Nat.one_pos (Nat.le_max_left ..)⟩

/-- A ticker whose first tick is due at once. -/
def atOnce (period now : Nat) : Ticker := startingAt now period

/-- A ticker whose first tick is a period away. -/
def after (period now : Nat) : Ticker := startingAt (now + max leastPeriod period) period

/-- Whether a tick is due. -/
def isDue (t : Ticker) (now : Nat) : Bool := t.next ≤ now

/-- The ticker after its tick has been taken. -/
def taken (t : Ticker) (now : Nat) : Ticker :=
  { t with next := if t.next + tolerance < now then now + t.period else t.next + t.period }

/-- The ticker with its next tick at some time from now. -/
def postponed (t : Ticker) (now wait : Nat) : Ticker := { t with next := now + wait }

@[simp] theorem period_taken (t : Ticker) (now : Nat) : (t.taken now).period = t.period := rfl

theorem next_lt_next_taken (t : Ticker) (now : Nat) : t.next < (t.taken now).next := by
  have := t.period_pos
  simp only [taken]
  split <;> omega

/-- After a tick, the next one is at least a period later than it was due. -/
theorem add_period_le_next_taken (t : Ticker) (now : Nat) :
    t.next + t.period ≤ (t.taken now).next := by
  simp only [taken]
  split <;> omega

/-- After a tick that is taken when it is due, the next one comes a period later. -/
theorem next_taken_of_le {t : Ticker} {now : Nat} (h : now ≤ t.next) :
    (t.taken now).next = t.next + t.period := by
  simp only [taken]
  rw [if_neg (by omega)]

end Ticker

end Courier.Time

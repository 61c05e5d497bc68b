import Courier.Crontab.Basic
import Courier.Time.Ticker
import Courier.Time.Timed

/-!
The cron daemon: a crontab that is looked through at every tick.

The daemon may be started once; after it has been stopped it no longer fires, even when it is
started again.
-/

namespace Courier.Crontab

open Time

/-- The shortest time between two looks, in milliseconds. -/
def leastTick : Nat := 10

/-- The time between two looks unless said otherwise, in milliseconds. -/
def defaultTick : Nat := 1000

/-- A crontab with the loop that fires it. -/
structure Daemon where
  crontab : Crontab := {}
  /-- Where fired tasks go. -/
  channel : Channel
  /-- The time between two looks. -/
  period : Nat := defaultTick
  /-- The ticker of the loop, when it has been started. -/
  ticker : Option Ticker := none
  /-- Whether a loop has been told to stop. -/
  stopped : Bool := false
deriving DecidableEq

namespace Daemon

/-- Starts the loop, which looks at once. -/
def start (d : Daemon) (now : Nat) : Except SchedulerError Daemon :=
  if d.ticker.isSome then .error (.runtime "cron runtime already started")
  else .ok { d with ticker := some (.atOnce (max leastTick d.period) now) }

/-- Stops the loop, if it has been started. -/
def stop (d : Daemon) : Daemon :=
  if d.ticker.isSome then { d with ticker := none, stopped := true } else d

/-- Fires what is due at an instant; also says how many tasks were sent. -/
def fireDue (d : Daemon) (now : Instant) : Nat × Daemon :=
  let (n, crontab, channel) := d.crontab.fireDue now d.channel
  (n, { d with crontab, channel })

/-- The daemon after a look, if one is due. -/
def settle (m : Moment) (d : Daemon) : Daemon :=
  match d.ticker with
  | none => d
  | some t =>
    if !d.stopped ∧ t.isDue m.elapsed then
      { (d.fireDue m.wall).2 with ticker := some (t.taken m.elapsed) }
    else d

/-- When the daemon looks next. -/
def next? (d : Daemon) : Option Nat := if d.stopped then none else d.ticker.map Ticker.next

instance : Timed Daemon where
  settle := settle
  next? := next?

end Daemon

end Courier.Crontab

import Courier.Bus
import Courier.Delivery.Line.Settle
import Courier.Delivery.Pool
import Courier.Delivery.Subscriber
import Courier.Signal
import Courier.Time.Timed

/-!
The dispatcher: from the bus to the recipients.

Background loops move entries along: a subscriber reads the bus and adds entries to the pool, and
the pool hands them to workers at every tick of its own.  All loops and all workers end when the
shutdown signal is raised, and the pool then drops what waits.
-/

namespace Courier.Delivery

open Time

/-- A background loop. -/
inductive Loop
  /-- Makes a pass of the pool at every tick. -/
  | pool (ticker : Ticker)
  /-- Reads the bus. -/
  | subscriber (reader : ReaderId)
deriving DecidableEq

/-- The name of a loop. -/
def Loop.name : Loop → String
  | pool _ => "pool"
  | subscriber _ => "subscriber"

/-- Something that happens in the dispatcher. -/
inductive Report
  | attempt (a : Attempt Parcel)
  | dropped (e : EnvelopeError)
  /-- The subscriber was too slow for so many envelopes. -/
  | missed (count : Nat)

/-- The dispatcher. -/
structure Dispatcher (σ : Type) where
  pool : Pool (Entry Parcel)
  /-- The time between passes of the pool. -/
  period : Nat := defaultTick
  maxRetry : Nat := defaultMaxRetry
  bus : Bus
  signal : Signal := {}
  /-- The loops in the order in which they were started, and whether they have ended. -/
  loops : List (Loop × Bool) := []
  /-- The calls under way, by recipient. -/
  calls : List (Int × Call) := []
  sender : σ
  /-- What has happened and when, newest first. -/
  reports : List (Nat × Report) := []

namespace Dispatcher

variable {σ : Type}

/-! ### From outside -/

/-- Adds an entry for a recipient. -/
def add (d : Dispatcher σ) (recipient : Int) (e : Entry Parcel) : Dispatcher σ :=
  { d with pool := d.pool.add recipient e }

/-- Takes an envelope, or says why not. -/
def accept (d : Dispatcher σ) (text : String) : Except EnvelopeError (Dispatcher σ) :=
  match readEnvelope d.maxRetry text with
  | .ok (recipient, e) => .ok (d.add recipient e)
  | .error e => .error e

/-- Makes a pass of the pool. -/
def reconcile (d : Dispatcher σ) (now : Nat) : Dispatcher σ :=
  { d with pool := d.pool.reconcile now }

/-- Starts the pool's loop, which makes a pass at once. -/
def startPool (d : Dispatcher σ) (now : Nat) : Dispatcher σ :=
  { d with loops := d.loops ++ [(.pool (.atOnce d.period now), false)] }

/-- Starts a loop that reads the bus from now on. -/
def subscribe (d : Dispatcher σ) : Dispatcher σ :=
  let (reader, bus) := d.bus.subscribe
  { d with bus, loops := d.loops ++ [(.subscriber reader, false)] }

/-- Publishes an envelope; also says how many readers it reaches. -/
def publishText (d : Dispatcher σ) (text : String) : Nat × Dispatcher σ :=
  let (n, bus) := d.bus.publishText text
  (n, { d with bus })

/-- Sets the signal. -/
def setSignal (d : Dispatcher σ) (value : Bool) : Dispatcher σ :=
  { d with signal := d.signal.set value }

/-- Lets go of the signal. -/
def dropSignal (d : Dispatcher σ) : Dispatcher σ := { d with signal := d.signal.drop }

/-- The calls that are over, newest first. -/
def attempts (d : Dispatcher σ) : List (Attempt Parcel) :=
  d.reports.filterMap fun r => match r.2 with
    | .attempt a => some a
    | _ => none

/-- The names of the loops that have ended, in the order in which they were started. -/
def ended (d : Dispatcher σ) : List String := (d.loops.filter Prod.snd).map fun l => l.1.name

/-! ### The loops -/

/-- Takes what a subscriber gets from the bus: the dispatcher afterwards, and whether the loop has
ended. -/
def take (now : Nat) (d : Dispatcher σ) : List Received → Dispatcher σ × Bool
  | [] => (d, false)
  | .closed :: _ => (d, true)
  | .missed n :: rest => take now { d with reports := (now, .missed n) :: d.reports } rest
  | .envelope text :: rest =>
    match d.accept text with
    | .ok d => take now d rest
    | .error e => take now { d with reports := (now, .dropped e) :: d.reports } rest

/-- Lets a loop do what it does at an instant. -/
def runLoop (now : Nat) (d : Dispatcher σ) (loop : Loop × Bool) : Dispatcher σ × (Loop × Bool) :=
  match loop with
  | (loop, true) => (d, (loop, true))
  | (.pool ticker, false) =>
    if d.signal.raised then ({ d with pool := d.pool.clear }, (.pool ticker, true))
    else if ticker.isDue now then (d.reconcile now, (.pool (ticker.taken now), false))
    else (d, (.pool ticker, false))
  | (.subscriber reader, false) =>
    if d.signal.raised then ({ d with bus := d.bus.unsubscribe reader }, (.subscriber reader, true))
    else
      let (received, bus) := d.bus.receive reader
      let (d, ended) := take now { d with bus } received
      (if ended then { d with bus := d.bus.unsubscribe reader } else d,
        (.subscriber reader, ended))

/-- Lets the loops do what they do at an instant, one after the other. -/
def runLoops (now : Nat) (d : Dispatcher σ) :
    List (Loop × Bool) → Dispatcher σ × List (Loop × Bool)
  | [] => (d, [])
  | loop :: loops =>
    let (d, loop) := runLoop now d loop
    let (d, loops) := runLoops now d loops
    (d, loop :: loops)

/-! ### The workers -/

/-- A worker with its call, making further calls with a sender. -/
def line (d : Dispatcher σ) (w : Worker (Entry Parcel)) : Line σ Parcel :=
  ⟨w, d.calls.lookup w.recipient, d.sender, []⟩

/-- Lets workers do what they do at an instant, one after the other. -/
def runWorkers [Sender σ Parcel] (now : Nat) (d : Dispatcher σ) :
    List (Worker (Entry Parcel)) → Dispatcher σ × List (Worker (Entry Parcel))
  | [] => (d, [])
  | w :: ws =>
    let l := (d.line w).settle d.signal.raised now
    let others := d.calls.filter fun c => c.1 ≠ w.recipient
    let d := { d with
      sender := l.sender
      calls := (l.call.toList.map fun c => (w.recipient, c)) ++ others
      reports := l.attempts.map (fun a => (now, .attempt a)) ++ d.reports }
    let (d, ws) := runWorkers now d ws
    (d, l.worker :: ws)

/-- The dispatcher after what the workers do at an instant. -/
def settleWorkers [Sender σ Parcel] (now : Nat) (d : Dispatcher σ) : Dispatcher σ :=
  let (d, workers) := runWorkers now d d.pool.workers
  { d with pool := { d.pool with workers } }

/-- The dispatcher after what the loops do at an instant. -/
def settleLoops (now : Nat) (d : Dispatcher σ) : Dispatcher σ :=
  let (d, loops) := runLoops now d d.loops
  { d with loops }

/-- The dispatcher at rest.  Ticks of workers come before those of the pool, and what the pool hands
over is taken at once. -/
def settle [Sender σ Parcel] (now : Nat) (d : Dispatcher σ) : Dispatcher σ :=
  ((d.settleWorkers now).settleLoops now).settleWorkers now

/-- When a loop acts again by itself. -/
def Loop.next? : Loop × Bool → Option Nat
  | (.pool ticker, false) => some ticker.next
  | _ => none

/-- When the dispatcher acts again by itself. -/
def next? (d : Dispatcher σ) : Option Nat :=
  earlier? (earliest? (d.loops.map Loop.next?))
    (earliest? (d.pool.workers.map fun w => (d.line w).next?))

instance [Sender σ Parcel] : Timed (Dispatcher σ) where
  settle m d := d.settle m.elapsed
  next? := next?

end Dispatcher

end Courier.Delivery

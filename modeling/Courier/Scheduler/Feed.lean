import Courier.Catalog.Store

/-!
Reading the enabled jobs.

A `Feed` gives jobs one after the other, each after some time, and may fail or never end.
`Feed.read` says when reading it is over and what has been read by then; whoever reads waits only
for a limited time.
-/

namespace Courier

/-- Jobs that come one after the other. -/
structure Feed where
  /-- The jobs, each with the milliseconds before it comes. -/
  items : List (Nat × Except SchedulerError Job)
  /-- Whether nothing more comes after the last job, not even the end. -/
  endless : Bool := false

/-- Where the scheduler finds jobs. -/
class JobSource (μ : Type) where
  /-- The enabled jobs, newest first. -/
  feed : μ → Feed

instance : JobSource Catalog where
  feed c := ⟨c.enabled.map fun item => (0, item), false⟩

/-- Either of two sources. -/
instance {μ ν : Type} [JobSource μ] [JobSource ν] : JobSource (μ ⊕ ν) where
  feed
    | .inl s => JobSource.feed s
    | .inr s => JobSource.feed s

namespace Feed

/-- Reads on from an instant, given what has been read: when it is over, and what has been read. -/
def readFrom (deadline timeout : Nat) (endless : Bool) :
    (now : Nat) → List (Nat × Except SchedulerError Job) →
      Nat × Except SchedulerError (List Job)
  | now, [] => if endless then (deadline, .error (.timeout (timeout / 1000))) else (now, .ok [])
  | now, (wait, item) :: items =>
    if deadline < now + wait then (deadline, .error (.timeout (timeout / 1000)))
    else
      match item with
      | .error e => (now + wait, .error e)
      | .ok j =>
        let (stop, rest) := readFrom deadline timeout endless (now + wait) items
        (stop, rest.map (j :: ·))

/-- Reads all jobs from an instant on, for at most some milliseconds: when it is over, and the jobs
or an error. -/
def read (f : Feed) (now timeout : Nat) : Nat × Except SchedulerError (List Job) :=
  readFrom (now + timeout) timeout f.endless now f.items

end Feed

end Courier

import Courier.Scheduler.Feed

/-!
Jobs in memory as a source, and what may be wrong with a source.

A `Roster` gives its enabled jobs newest first, those of one timestamp in the order of the list.
Its ailment makes it slow, or lets it fail or come to a halt before or after the jobs.
-/

namespace Courier.Scheduler

/-- What is wrong with a source. -/
inductive Ailment
  | none
  /-- Reading fails at once. -/
  | broken
  /-- Reading fails after the jobs. -/
  | brokenAfter
  /-- Nothing ever comes. -/
  | stalled
  /-- Nothing comes after the jobs. -/
  | stalledAfter
  /-- Every job takes two seconds. -/
  | slow
deriving DecidableEq

/-- The ailment of a name; all other names mean none. -/
def Ailment.ofName (name : String) : Ailment :=
  ([("broken", .broken), ("broken_after", .brokenAfter), ("stalled", .stalled),
    ("stalled_after", .stalledAfter), ("slow", .slow)].lookup name).getD .none

/-- Jobs in memory. -/
structure Roster where
  jobs : List Job := []
  ailment : Ailment := .none

namespace Roster

/-- Adds a job at the end. -/
def push (r : Roster) (j : Job) : Roster := { r with jobs := r.jobs ++ [j] }

/-- Removes the jobs of an id. -/
def erase (r : Roster) (id : String) : Roster :=
  { r with jobs := r.jobs.filter fun j => j.id ≠ id }

/-- The enabled jobs, newest first. -/
def enabled (r : Roster) : List Job :=
  (r.jobs.filter Job.enabled).mergeSort fun a b => b.updatedAt ≤ a.updatedAt

/-- The jobs as they are read. -/
def feed (r : Roster) : Feed :=
  let jobs (wait : Nat) := r.enabled.map fun j => (wait, Except.ok j)
  let failure := (0, Except.error (.runtime "store offline"))
  match r.ailment with
  | .none => ⟨jobs 0, false⟩
  | .broken => ⟨[failure], false⟩
  | .brokenAfter => ⟨jobs 0 ++ [failure], false⟩
  | .stalled => ⟨[], true⟩
  | .stalledAfter => ⟨jobs 0, true⟩
  | .slow => ⟨jobs 2000, false⟩

instance : JobSource Roster := ⟨feed⟩

end Roster

end Courier.Scheduler

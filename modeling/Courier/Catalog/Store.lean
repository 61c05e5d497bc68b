import Courier.Catalog.Row

/-!
The job catalog.

A `Catalog` is a table of rows in the order in which their ids came in; it may have lost its table,
and then every operation fails.  Rows are listed newest first, by the text of their timestamps, rows
of one timestamp in the order of the table.
-/

namespace Courier

open Catalog

/-- The job catalog: its rows in order of arrival, or nothing when the table is gone. -/
structure Catalog where
  table : Option (List Row)
deriving DecidableEq

namespace Catalog

/-- The catalog without jobs. -/
def empty : Catalog := ⟨some []⟩

/-- Makes the table if there is none. -/
def opened (c : Catalog) : Catalog := ⟨some (c.table.getD [])⟩

/-- The catalog without its table. -/
def dropped (_ : Catalog) : Catalog := ⟨none⟩

/-! ### Tables -/

namespace Table

/-- Replaces the row of this id where it stands, or adds the row at the end. -/
def upsert (r : Row) : List Row → List Row
  | [] => [r]
  | s :: rows => if s.id = r.id then r :: rows else s :: upsert r rows

/-- The row of an id. -/
def find? (id : String) (rows : List Row) : Option Row := rows.find? fun r => r.id == id

/-- The rows newest first; rows of one timestamp keep their order. -/
def newestFirst (rows : List Row) : List Row :=
  rows.mergeSort fun a b => !(a.updatedAt < b.updatedAt)

@[simp] theorem upsert_nil (r : Row) : upsert r [] = [r] := rfl

theorem mem_upsert_self (r : Row) (rows : List Row) : r ∈ upsert r rows := by
  induction rows with
  | nil => simp
  | cons s rows ih => by_cases h : s.id = r.id <;> simp [upsert, h, ih]

end Table

/-! ### Operations -/

/-- What an operation gives: an answer and the catalog afterwards, or an error. -/
abbrev Result (α : Type) := Except SchedulerError α

/-- Adds a job or replaces the one of its id. -/
def save (c : Catalog) (j : Job) : Result Catalog :=
  match c.table with
  | none => .error .database
  | some rows => .ok ⟨some (Table.upsert (Row.ofJob j) rows)⟩

/-- The job of an id, if there is one. -/
def get (c : Catalog) (id : String) : Result (Option Job) :=
  match c.table with
  | none => .error .database
  | some rows =>
    match Table.find? id rows with
    | none => .ok none
    | some r => r.job.map some

/-- All jobs, newest first, or the error of the first row that cannot be read. -/
def list (c : Catalog) : Result (List Job) :=
  match c.table with
  | none => .error .database
  | some rows => (Table.newestFirst rows).mapM Row.job

/-- Turns a job on or off; its timestamp moves to the present. -/
def setEnabled (c : Catalog) (id : String) (enabled : Bool) (now : Time.Instant) :
    Result Catalog :=
  match c.table with
  | none => .error .database
  | some rows =>
    if (Table.find? id rows).isNone then .error (.jobNotFound id)
    else
      .ok ⟨some (rows.map fun r =>
        if r.id = id then { r with enabled := if enabled then 1 else 0, updatedAt := now.stored }
        else r)⟩

/-- Takes a job out. -/
def remove (c : Catalog) (id : String) : Result Catalog :=
  match c.table with
  | none => .error .database
  | some rows =>
    if (Table.find? id rows).isNone then .error (.jobNotFound id)
    else .ok ⟨some (rows.filter fun r => r.id ≠ id)⟩

/-- The number of jobs. -/
def count (c : Catalog) : Result Nat :=
  match c.table with
  | none => .error .database
  | some rows => .ok rows.length

/-- The enabled jobs, newest first, each one or the error of its row. -/
def enabled (c : Catalog) : List (Result Job) :=
  match c.table with
  | none => [.error .database]
  | some rows => (Table.newestFirst (rows.filter fun r => r.enabled = 1)).map Row.job

end Catalog

end Courier

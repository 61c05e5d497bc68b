import Courier.Delivery.Worker

/-!
The pool: entries of all recipients and the workers that deliver them.

Entries wait in the slot of their recipient until a pass of `Pool.reconcile` hands them to a worker.
A recipient has at most one worker, and there are at most `max` workers; a recipient for whom there
is no room keeps its entries for a later pass.

For each recipient a pass does three things: it takes the entries out of their slot (`withdraw`),
sees to it that there is an open worker (`engage`), and hands the entries to it (`give`).  Workers
go on working in the meantime, so the worker may have closed when it is given the entries; these
then go back to their slot, in front of what came in since (`requeue`).
-/

namespace Courier.Delivery

/-- The greatest number of workers unless said otherwise. -/
def defaultMaxWorkers : Nat := 25

/-- How far apart passes are unless said otherwise, in milliseconds. -/
def defaultTick : Nat := 1000

/-- Entries by recipient, in the order in which the recipients came in. -/
abbrev Waiting (ε : Type) := List (Int × List ε)

/-- A pool. -/
structure Pool (ε : Type) where
  /-- The greatest number of workers. -/
  max : Nat := defaultMaxWorkers
  /-- The period of the workers. -/
  period : Nat := defaultPeriod
  waiting : Waiting ε := []
  workers : List (Worker ε) := []
deriving DecidableEq

namespace Waiting

variable {ε : Type}

/-- The entries of a recipient. -/
def entries (t : Waiting ε) (recipient : Int) : List ε := (t.lookup recipient).getD []

/-- Changes the entries of a recipient. -/
def update (recipient : Int) (f : List ε → List ε) : Waiting ε → Waiting ε
  | [] => [(recipient, f [])]
  | slot :: t =>
    if slot.1 = recipient then (recipient, f slot.2) :: t else slot :: update recipient f t

/-- Removes the slot of a recipient. -/
def erase (t : Waiting ε) (recipient : Int) : Waiting ε :=
  t.filter fun slot => slot.1 ≠ recipient

/-- The recipients that have entries. -/
def recipients (t : Waiting ε) : List Int :=
  t.filterMap fun slot => if slot.2.isEmpty then none else some slot.1

/-- Whether no recipient has two slots. -/
def Distinct (t : Waiting ε) : Prop := (t.map Prod.fst).Nodup

@[simp] theorem entries_nil (r : Int) : entries ([] : Waiting ε) r = [] := rfl

theorem entries_cons (k : Int) (es : List ε) (t : Waiting ε) (r : Int) :
    entries ((k, es) :: t) r = if k = r then es else entries t r := by
  by_cases h : k = r
  · simp [entries, h]
  · have hb : (r == k) = false := by simpa using Ne.symm h
    simp [entries, List.lookup_cons, h, hb]

theorem entries_update (r : Int) (f : List ε → List ε) (t : Waiting ε) (r' : Int) :
    entries (update r f t) r' = if r' = r then f (entries t r) else entries t r' := by
  induction t with
  | nil => simp [update, entries_cons, eq_comm]
  | cons slot t ih =>
    obtain ⟨k, es⟩ := slot
    by_cases h : k = r
    · simp only [update, h, if_true, entries_cons]
      by_cases h' : r' = r <;> simp [h', Ne.symm]
    · simp only [update, h, if_false, entries_cons, ih]
      by_cases h' : r' = r <;> simp [h', h]

theorem entries_erase (t : Waiting ε) (r r' : Int) :
    entries (erase t r) r' = if r' = r then [] else entries t r' := by
  induction t with
  | nil => simp [erase]
  | cons slot t ih =>
    obtain ⟨k, es⟩ := slot
    by_cases h : k = r
    · have : erase ((k, es) :: t) r = erase t r := by simp [erase, h]
      rw [this, ih, entries_cons]
      by_cases h' : r' = r
      · simp [h']
      · simp [h', h, Ne.symm h']
    · have : erase ((k, es) :: t) r = (k, es) :: erase t r := by simp [erase, h]
      rw [this, entries_cons, entries_cons, ih]
      by_cases h' : r' = r <;> simp [h', h]

theorem mem_keys_update {r r' : Int} {f : List ε → List ε} {t : Waiting ε}
    (h : r' ∈ (update r f t).map Prod.fst) : r' = r ∨ r' ∈ t.map Prod.fst := by
  induction t with
  | nil => simpa [update] using h
  | cons slot t ih =>
    by_cases hs : slot.1 = r
    · simp only [update, hs, if_true, List.map_cons, List.mem_cons] at h ⊢
      exact h.imp_right .inr
    · simp only [update, hs, if_false, List.map_cons, List.mem_cons] at h ⊢
      rcases h with h | h
      · exact .inr (.inl h)
      · exact (ih h).imp_right .inr

theorem Distinct.update {t : Waiting ε} (h : t.Distinct) (r : Int) (f : List ε → List ε) :
    Distinct (update r f t) := by
  induction t with
  | nil => simp [Distinct, Waiting.update]
  | cons slot t ih =>
    simp only [Distinct, List.map_cons, List.nodup_cons] at h
    by_cases hs : slot.1 = r
    · rw [hs] at h
      simp only [Distinct, Waiting.update, hs, if_true, List.map_cons, List.nodup_cons]
      exact h
    · simp only [Distinct, Waiting.update, hs, if_false, List.map_cons, List.nodup_cons]
      refine ⟨fun hmem => ?_, ih h.2⟩
      rcases mem_keys_update hmem with hr | hr
      · exact hs hr
      · exact h.1 hr

theorem Distinct.erase {t : Waiting ε} (h : t.Distinct) (r : Int) : Distinct (erase t r) :=
  h.sublist (List.filter_sublist.map _)

end Waiting

namespace Pool

variable {ε : Type}

/-- Adds an entry for a recipient, behind its others. -/
def add (p : Pool ε) (recipient : Int) (e : ε) : Pool ε :=
  { p with waiting := p.waiting.update recipient (· ++ [e]) }

/-- How many workers are open. -/
def live (p : Pool ε) : Nat := p.workers.countP fun w => !w.closed

/-- The worker of a recipient. -/
def worker? (p : Pool ε) (recipient : Int) : Option (Worker ε) :=
  p.workers.find? fun w => w.recipient = recipient

/-- Puts a worker in the place of the one that its recipient has. -/
def setWorker (p : Pool ε) (w : Worker ε) : Pool ε :=
  { p with workers := p.workers.map fun v => if v.recipient = w.recipient then w else v }

/-- Forgets the workers that are closed. -/
def sweep (p : Pool ε) : Pool ε := { p with workers := p.workers.filter fun w => !w.closed }

/-- How many more workers there may be. -/
def room (p : Pool ε) : Nat := p.max - p.workers.length

/-- Whether no recipient has two slots or two workers. -/
structure Distinct (p : Pool ε) : Prop where
  waiting : p.waiting.Distinct
  workers : (p.workers.map Worker.recipient).Nodup

/-! ### Handing over -/

/-- Takes the entries of a recipient out of their slot. -/
def withdraw (p : Pool ε) (recipient : Int) : List ε × Pool ε :=
  (p.waiting.entries recipient, { p with waiting := p.waiting.erase recipient })

/-- Puts entries back, in front of those that came in since they were withdrawn. -/
def requeue (p : Pool ε) (recipient : Int) (entries : List ε) : Pool ε :=
  { p with waiting := p.waiting.update recipient (entries ++ ·) }

/-- Forgets the worker of a recipient. -/
def dismiss (p : Pool ε) (recipient : Int) : Pool ε :=
  { p with workers := p.workers.filter fun w => w.recipient ≠ recipient }

/-- Starts a worker for a recipient. -/
def hire (p : Pool ε) (now : Nat) (recipient : Int) : Pool ε :=
  { p with workers := p.workers ++ [.new recipient p.period now] }

/-- Sees to it that a recipient has an open worker; `none` if there is no room for one.  A worker
that has closed since the pass began makes room for its successor.  Also gives the room that is
left. -/
def engage (p : Pool ε) (room now : Nat) (recipient : Int) : Option (Pool ε × Nat) :=
  match p.worker? recipient with
  | some w =>
    if w.closed then some ((p.dismiss recipient).hire now recipient, room)
    else some (p, room)
  | none => if 0 < room then some (p.hire now recipient, room - 1) else none

/-- Drops all entries that wait. -/
def clear (p : Pool ε) : Pool ε := { p with waiting := [] }

/-! ### The worker of a recipient -/

@[simp] theorem waiting_sweep (p : Pool ε) : p.sweep.waiting = p.waiting := rfl

@[simp] theorem waiting_setWorker (p : Pool ε) (w : Worker ε) :
    (p.setWorker w).waiting = p.waiting := rfl

@[simp] theorem waiting_replace (p : Pool ε) (now : Nat) (r : Int) :
    ((p.dismiss r).hire now r).waiting = p.waiting := rfl

@[simp] theorem period_dismiss (p : Pool ε) (r : Int) : (p.dismiss r).period = p.period := rfl

theorem recipient_of_worker? {p : Pool ε} {r : Int} {w : Worker ε} (h : p.worker? r = some w) :
    w.recipient = r := by
  simpa using List.find?_some h

theorem worker?_setWorker (p : Pool ε) (w : Worker ε) (r : Int) :
    (p.setWorker w).worker? r =
      if r = w.recipient then (p.worker? r).map fun _ => w else p.worker? r := by
  have hf : ((fun v : Worker ε => decide (v.recipient = r)) ∘
      fun v => if v.recipient = w.recipient then w else v) = fun v => decide (v.recipient = r) := by
    funext v
    by_cases hv : v.recipient = w.recipient <;> simp [hv]
  have hmap : (p.setWorker w).worker? r =
      (p.worker? r).map fun v => if v.recipient = w.recipient then w else v := by
    simp only [worker?, setWorker, List.find?_map, hf]
  rw [hmap]
  rcases hw : p.worker? r with - | v
  · simp
  · simp only [Option.map_some, recipient_of_worker? hw]
    split <;> rfl

theorem worker?_dismiss (p : Pool ε) (r r' : Int) :
    (p.dismiss r).worker? r' = if r' = r then none else p.worker? r' := by
  simp only [worker?, dismiss, List.find?_filter]
  by_cases h : r' = r
  · rw [if_pos h, List.find?_eq_none]
    intro v _
    simp [h]
  · rw [if_neg h]
    congr 1
    funext v
    by_cases hv : v.recipient = r' <;> simp [hv, h]

theorem worker?_hire (p : Pool ε) (now : Nat) (r r' : Int) :
    (p.hire now r).worker? r' =
      (p.worker? r').or (if r' = r then some (.new r p.period now) else none) := by
  by_cases h : r' = r
  · simp [worker?, hire, List.find?_append, Worker.new, h]
  · simp [worker?, hire, List.find?_append, Worker.new, h, Ne.symm h]

/-- A pass forgets a recipient's worker if it is closed. -/
theorem Distinct.worker?_sweep {p : Pool ε} (h : p.Distinct) (r : Int) :
    p.sweep.worker? r = (p.worker? r).filter fun w => !w.closed := by
  have key : ∀ ws : List (Worker ε), (ws.map Worker.recipient).Nodup →
      (ws.filter fun w => !w.closed).find? (fun w => w.recipient = r) =
        (ws.find? fun w => w.recipient = r).filter fun w => !w.closed := by
    intro ws hws
    induction ws with
    | nil => rfl
    | cons w ws ih =>
      simp only [List.map_cons, List.nodup_cons] at hws
      by_cases hr : w.recipient = r
      · -- `w` is the only worker of its recipient, so nothing is found behind it
        have hnone : (ws.filter fun w => !w.closed).find? (fun w => w.recipient = r) = none := by
          rw [List.find?_eq_none]
          intro v hv
          have hmem := List.mem_map_of_mem (f := Worker.recipient) (List.mem_filter.mp hv).1
          simpa using fun hvr : v.recipient = r => hws.1 (hr ▸ hvr ▸ hmem)
        cases hc : w.closed <;> simp [hr, hc, hnone, Option.filter]
      · cases hc : w.closed <;> simp [hr, hc, ih hws.2]
  exact key p.workers h.workers

/-! ### No recipient has two slots or two workers -/

theorem Distinct.update {p : Pool ε} (h : p.Distinct) (r : Int) (f : List ε → List ε) :
    Distinct { p with waiting := p.waiting.update r f } :=
  ⟨h.waiting.update r f, h.workers⟩

theorem Distinct.withdraw {p : Pool ε} (h : p.Distinct) (r : Int) : (p.withdraw r).2.Distinct :=
  ⟨h.waiting.erase r, h.workers⟩

theorem Distinct.clear {p : Pool ε} (h : p.Distinct) : p.clear.Distinct :=
  ⟨List.nodup_nil, h.workers⟩

theorem Distinct.sweep {p : Pool ε} (h : p.Distinct) : p.sweep.Distinct :=
  ⟨h.waiting, h.workers.sublist (List.filter_sublist.map _)⟩

theorem Distinct.setWorker {p : Pool ε} (h : p.Distinct) (w : Worker ε) :
    (p.setWorker w).Distinct := by
  refine ⟨h.waiting, ?_⟩
  have hmap : (p.workers.map fun v => if v.recipient = w.recipient then w else v).map
      Worker.recipient = p.workers.map Worker.recipient := by
    rw [List.map_map]
    refine List.map_congr_left fun v _ => ?_
    by_cases hv : v.recipient = w.recipient <;> simp [hv]
  simpa [Pool.setWorker, hmap] using h.workers

/-- The successor of a worker takes the place of that worker. -/
theorem Distinct.replace {p : Pool ε} (h : p.Distinct) (now : Nat) (r : Int) :
    ((p.dismiss r).hire now r).Distinct := by
  refine ⟨h.waiting, ?_⟩
  simp only [hire, dismiss, List.map_append, List.map_cons, List.map_nil, Worker.new]
  refine List.nodup_append.mpr ⟨h.workers.sublist (List.filter_sublist.map _), by simp, ?_⟩
  intro a ha b hb
  obtain ⟨v, hv, rfl⟩ := List.mem_map.mp ha
  obtain rfl := List.mem_singleton.mp hb
  simpa using (List.mem_filter.mp hv).2

/-- Unless it finds no room, `engage` leaves the recipient with the open worker that it had, or with
a new one. -/
theorem engage_eq_some {p q : Pool ε} {room room' now : Nat} {r : Int}
    (h : p.engage room now r = some (q, room')) :
    (q = p ∧ ∃ w, p.worker? r = some w ∧ w.closed = false) ∨
      (∀ w, p.worker? r = some w → w.closed = true) ∧ q = (p.dismiss r).hire now r := by
  unfold engage at h
  rcases hw : p.worker? r with - | w
  · simp only [hw, Option.ite_none_right_eq_some, Option.some.injEq, Prod.mk.injEq] at h
    have hp : p.dismiss r = p := by
      have := List.find?_eq_none.mp hw
      simp only [dismiss]
      congr 1
      exact List.filter_eq_self.mpr fun v hv => by simpa using this v hv
    exact .inr ⟨by simp, by rw [hp]; exact h.2.1.symm⟩
  · simp only [hw] at h
    split at h
    · rename_i hc
      exact .inr ⟨by simpa using hc, by simpa using (congrArg Prod.fst (Option.some.inj h)).symm⟩
    · rename_i hc
      exact .inl ⟨by simpa using (congrArg Prod.fst (Option.some.inj h)).symm, w, rfl,
        by simpa using hc⟩

variable [Deliverable ε]

/-- Hands entries to the worker of their recipient; they go back to their slot if it has closed. -/
def give (p : Pool ε) (recipient : Int) (entries : List ε) : Pool ε :=
  match p.worker? recipient with
  | none => p.requeue recipient entries
  | some w =>
    match w.put entries with
    | .ok w => p.setWorker w
    | .error rejected => p.requeue recipient rejected

/-- Hands the entries of a recipient to its worker, a new one if need be and if there is room.  Also
gives the room that is left. -/
def handOver (now : Nat) (p : Pool ε) (room : Nat) (recipient : Int) : Pool ε × Nat :=
  let (entries, rest) := p.withdraw recipient
  if entries.isEmpty then (rest, room)
  else
    match rest.engage room now recipient with
    | none => (rest.requeue recipient entries, room)
    | some (p, room) => (p.give recipient entries, room)

/-- One pass: forgets closed workers and hands over the entries of recipients in some order. -/
def reconcileIn (order : List Int) (p : Pool ε) (now : Nat) : Pool ε :=
  (order.foldl (fun s recipient => handOver now s.1 s.2 recipient) (p.sweep, p.sweep.room)).1

/-- One pass over all recipients that have entries. -/
def reconcile (p : Pool ε) (now : Nat) : Pool ε :=
  reconcileIn (Waiting.recipients p.waiting) p now

end Pool

end Courier.Delivery

import Courier.Proofs.Delivery.Move

/-!
Entries that can be told apart.

Two entries with the same units are the same value, so nothing can be said about "this entry" unless
it carries something of its own.  A `Tracked` entry has a number, knows for whom and as what it came
in, and collects the answers to its calls.  Workers treat it as they treat the bare entry, so what
is proved of runs of tracked entries is a statement about runs of bare ones.

`Settles` says when the calls for some units have come to an end, without reference to how entries
are processed: every unit is delivered, or the answers end with one that gives the rest up.

The invariant of an entry is `Tracked.Valid`: whatever further answers would settle what is left,
they settle the origin together with the answers so far.  It is put this way round so that one
answer is one step (`Tracked.Valid.answer`): an answer is moved from the further ones to those so
far.

Main statement: what is left of a valid tracked entry is what its answers leave, so that an entry
with nothing left has settled (`Tracked.Valid.settles`).
-/

namespace Courier.Delivery

variable {π : Type}

/-- An entry with its history.

* `number`: how many entries came in before it.
* `origin`: the entry as it came in.
* `rest`: what is left of it.
* `outcomes`: the answers to its calls, oldest first. -/
structure Tracked (π : Type) where
  number : Nat
  recipient : Int
  origin : Entry π
  rest : Entry π
  outcomes : List Outcome

namespace Tracked

/-- An entry that comes in. -/
def book (number : Nat) (recipient : Int) (e : Entry π) : Tracked π := ⟨number, recipient, e, e, []⟩

/-- A tracked entry after an answer. -/
def answer (x : Tracked π) (o : Outcome) : Tracked π × Nat :=
  ({ x with rest := (x.rest.answer o).1, outcomes := x.outcomes ++ [o] }, (x.rest.answer o).2)

instance : Deliverable (Tracked π) :=
  ⟨fun x => x.rest.delay, fun x => x.rest.units.isEmpty, answer⟩

/-- Which of its units is first, counted from zero. -/
def index (x : Tracked π) : Nat := x.outcomes.count .delivered

@[simp] theorem delay_eq (x : Tracked π) : Deliverable.delay x = x.rest.delay := rfl

@[simp] theorem isDone_eq (x : Tracked π) : Deliverable.isDone x = x.rest.units.isEmpty := rfl

@[simp] theorem answer_eq (x : Tracked π) (o : Outcome) : Deliverable.answer x o = x.answer o := rfl

@[simp] theorem number_answer (x : Tracked π) (o : Outcome) : (x.answer o).1.number = x.number := rfl

@[simp] theorem recipient_answer (x : Tracked π) (o : Outcome) :
    (x.answer o).1.recipient = x.recipient := rfl

@[simp] theorem origin_answer (x : Tracked π) (o : Outcome) : (x.answer o).1.origin = x.origin := rfl

@[simp] theorem wait_answer (x : Tracked π) (o : Outcome) :
    (x.answer o).2 = (x.rest.answer o).2 := rfl

@[simp] theorem delay_answer (x : Tracked π) (o : Outcome) :
    (x.answer o).1.rest.delay = x.rest.delay := by
  rcases hu : x.rest.units with - | ⟨u, us⟩
  · simp [answer, Entry.answer, hu]
  · cases o with
    | delivered => simp [answer, Entry.answer, hu]
    | failed reason => simp [answer, Entry.answer, hu]
    | rateLimited wait =>
      simp only [answer, Entry.answer, hu]
      split <;> rfl

theorem index_le_index_answer (x : Tracked π) (o : Outcome) : x.index ≤ (x.answer o).1.index := by
  simp [index, answer]

end Tracked

/-! ### The end of an entry -/

/-- The calls for the units `us`, answered by `os` one after the other, have come to an end.

* `done`: every unit has been delivered.
* `retried`: the unit may be tried again, and is.
* `exhausted`: the unit has been tried as often as it may be: the rest is given up.
* `failed`: a hard failure: the rest is given up.
* `refused`: to be told to wait no time at all is a hard failure, too. -/
inductive Settles : List (Unit π) → List Outcome → Prop
  | done : Settles [] []
  | delivered {u us os} : Settles us os → Settles (u :: us) (.delivered :: os)
  | retried {u us os wait} : 0 < wait → u.retryCount + 1 < u.maxRetry →
      Settles ({ u with retryCount := u.retryCount + 1 } :: us) os →
      Settles (u :: us) (.rateLimited wait :: os)
  | exhausted {u us wait} : 0 < wait → u.maxRetry ≤ u.retryCount + 1 →
      Settles (u :: us) [.rateLimited wait]
  | failed {u us reason} : Settles (u :: us) [.failed reason]
  | refused {u us} : Settles (u :: us) [.rateLimited 0]

/-- After an answer, the calls for what is left go on from there. -/
theorem Settles.of_answer {e : Entry π} {u : Unit π} {us : List (Unit π)} {o : Outcome}
    {os : List Outcome} (he : e.units = u :: us) (h : Settles (e.answer o).1.units os) :
    Settles e.units (o :: os) := by
  rw [he]
  cases o with
  | delivered => exact .delivered (by simpa [Entry.answer, he] using h)
  | failed reason =>
    have hdone : Settles ([] : List (Unit π)) os := by simpa [Entry.answer, he] using h
    cases hdone
    exact .failed
  | rateLimited wait =>
    by_cases hretry : 0 < wait ∧ u.retryCount + 1 < u.maxRetry
    · exact .retried hretry.1 hretry.2 (by simpa [Entry.answer, he, hretry] using h)
    · have hdone : Settles ([] : List (Unit π)) os := by
        simpa [Entry.answer, he, hretry] using h
      cases hdone
      rcases Nat.eq_zero_or_pos wait with rfl | hwait
      · exact .refused
      · exact .exhausted hwait (by omega)

/-! ### Valid tracked entries -/

namespace Tracked

/-- What is left of a tracked entry is what its answers leave.

* `settles_append`: once the calls for the rest have come to an end, so have those for the whole
  entry.
* `payloads`: the units that are left, unless given up, are the last ones. -/
structure Valid (x : Tracked π) : Prop where
  settles_append : ∀ os, Settles x.rest.units os → Settles x.origin.units (x.outcomes ++ os)
  payloads : x.rest.units ≠ [] →
    x.rest.units.map Unit.payload = (x.origin.units.map Unit.payload).drop x.index
  delay : x.rest.delay = x.origin.delay

theorem valid_book (n : Nat) (r : Int) (e : Entry π) : (book n r e).Valid :=
  ⟨fun os h => h, fun _ => by simp [book, index], rfl⟩

/-- An answer to a call keeps a tracked entry valid. -/
theorem Valid.answer {x : Tracked π} (h : x.Valid) (hx : x.rest.units ≠ []) (o : Outcome) :
    (x.answer o).1.Valid := by
  obtain ⟨u, us, he⟩ := List.exists_cons_of_ne_nil hx
  refine ⟨fun os hos => ?_, fun hne => ?_, ?_⟩
  · have := h.settles_append (o :: os) (.of_answer he hos)
    simpa [Tracked.answer] using this
  · -- only a delivered unit and a unit that is to be tried again leave something
    have hp := h.payloads hx
    -- as many units are gone as have been delivered
    cases o with
    | delivered =>
      have hus : (x.answer .delivered).1.rest.units = us := by
        simp [Tracked.answer, Entry.answer, he]
      have hindex : (x.answer .delivered).1.index = x.index + 1 := by
        simp [index, Tracked.answer]
      rw [hus, hindex, origin_answer, ← List.tail_drop, ← hp, he]
      rfl
    | failed reason => simp [Tracked.answer, Entry.answer, he] at hne
    | rateLimited wait =>
      have hindex : (x.answer (.rateLimited wait)).1.index = x.index := by
        simp [index, Tracked.answer]
      rw [hindex, origin_answer, ← hp, he]
      by_cases hretry : 0 < wait ∧ u.retryCount + 1 < u.maxRetry
      · simp [Tracked.answer, Entry.answer, he, hretry]
      · simp [Tracked.answer, Entry.answer, he, hretry] at hne
  · rw [delay_answer, origin_answer, h.delay]

/-- A valid entry of which nothing is left has settled. -/
theorem Valid.settles {x : Tracked π} (h : x.Valid) (hx : x.rest.units = []) :
    Settles x.origin.units x.outcomes := by
  simpa using h.settles_append [] (by rw [hx]; exact .done)

end Tracked

end Courier.Delivery

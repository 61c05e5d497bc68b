import Courier.Proofs.Delivery.Bay
import Courier.Proofs.Delivery.Tracked
import Mathlib.Tactic.Tauto

/-!
What a recipient's bay holds, and what it can come to hold.

An entry is held while it waits, is on its way to the worker, or is kept by an open worker; what a
closed worker still has in its queues has been dropped.  Nothing enters a bay but new entries, and
nothing about the entries in it changes but through answers, so that what is true of new entries and
survives an answer is true of every entry held and of every deed (`Bay.Step.forall_held`).

This is the induction that the invariants of entries share.  It is stated once, for any property,
first for the moves of a worker (`Worker.Moves.forall_kept`) and then for the steps of a bay; to use
it one has to show the property of new entries and of an entry that has been answered, and nothing
about where entries lie.

What is said of deeds goes by their turns: for whom a call is made is in hand
(`Bay.Step.inHand_of_sent`), and a finished entry has no unit left
(`Bay.Reachable.isDone_of_finished`).  Only one event brings entries in, and only the shutdown drops
them (`Depot.log_step`).

Main statement: in every run, every tracked entry that is held or has a part in a deed is valid, and
its number says when its origin was added for this recipient (`Depot.known_run`).
-/

namespace Courier.Delivery

variable {ε π : Type}

/-! ### The entries of a log -/

/-- The entries to which a thing has happened, the last one first. -/
def Log.items (log : Log ε) (t : Turn) : List ε := (log.filter fun a => a.turn = t).map Deed.item

namespace Log

@[simp] theorem items_nil (t : Turn) : Log.items ([] : Log ε) t = [] := rfl

@[simp] theorem items_cons (a : Deed ε) (log : Log ε) (t : Turn) :
    Log.items (a :: log) t = if a.turn = t then a.item :: Log.items log t else Log.items log t := by
  by_cases h : a.turn = t <;> simp [items, h]

@[simp] theorem items_append (log log' : Log ε) (t : Turn) :
    Log.items (log ++ log') t = Log.items log t ++ Log.items log' t := by
  simp [items]

theorem mem_items {log : Log ε} {t : Turn} {x : ε} :
    x ∈ Log.items log t ↔ ∃ a ∈ log, a.turn = t ∧ a.item = x := by
  simp [items, and_assoc]

theorem items_map (xs : List ε) (t t' : Turn) (now : Nat) (r : Int) :
    Log.items (xs.map fun x => (⟨t, now, r, x⟩ : Deed ε)) t' = if t = t' then xs else [] := by
  induction xs with
  | nil => simp
  | cons x xs ih =>
    rw [List.map_cons, items_cons, ih]
    split <;> rfl

end Log

/-! ### Workers -/

namespace Worker

/-- The entries that an open worker keeps. -/
def kept (w : Worker ε) : List ε :=
  if w.closed then [] else w.inHand.toList ++ (w.delayed ++ w.immediate)

theorem kept_of_open {w : Worker ε} (h : w.closed = false) :
    w.kept = w.inHand.toList ++ (w.delayed ++ w.immediate) := by
  simp [kept, h]

theorem kept_of_closed {w : Worker ε} (h : w.closed = true) : w.kept = [] := by
  simp [kept, h]

theorem mem_kept_of_inHand {w : Worker ε} {x : ε} (hopen : w.closed = false)
    (h : w.inHand = some x) : x ∈ w.kept := by
  simp [kept, hopen, h]

variable [Deliverable ε] {stop : Bool} {now : Nat} {w w' : Worker ε} {m : Move} {ds : Log ε}

@[simp] theorem closed_hold (w : Worker ε) (x : ε) : (w.hold x).closed = w.closed := rfl

@[simp] theorem delayed_hold (w : Worker ε) (x : ε) : (w.hold x).delayed = w.delayed := rfl

@[simp] theorem immediate_hold (w : Worker ε) (x : ε) : (w.hold x).immediate = w.immediate := rfl

@[simp] theorem ticker_hold (w : Worker ε) (x : ε) : (w.hold x).ticker = w.ticker := rfl

theorem inHand_hold (w : Worker ε) (x : ε) :
    (w.hold x).inHand = if Deliverable.isDone x then none else some x := rfl

theorem eq_of_inHand_hold {w : Worker ε} {x y : ε} (h : (w.hold x).inHand = some y) : y = x := by
  rw [inHand_hold] at h
  split at h
  · cases h
  · exact (Option.some.inj h).symm

theorem mem_kept_hold {w : Worker ε} {x y : ε} (h : y ∈ (w.hold x).kept) :
    y = x ∨ y ∈ w.delayed ∨ y ∈ w.immediate := by
  unfold kept at h
  split at h
  · exact absurd h List.not_mem_nil
  · rw [List.mem_append, List.mem_append, inHand_hold] at h
    rcases h with h | h
    · refine .inl ?_
      split at h
      · exact absurd h List.not_mem_nil
      · simpa using h
    · exact .inr h

theorem mem_kept_put {es : List ε} {x : ε} (h : w.put es = .ok w') :
    x ∈ w'.kept ↔ x ∈ w.kept ∨ x ∈ es := by
  obtain ⟨hopen, rfl⟩ := put_eq_ok h
  rw [kept_of_open hopen, kept_of_open (by exact hopen)]
  cases hdelay : Deliverable.delay x <;> simp [hdelay] <;> tauto

/-- What is true of the entries that a worker keeps, and survives an answer, is true after a move
of the entries that it then keeps and of those that its deeds are about. -/
theorem Moves.forall_kept {P : ε → Prop} (h : w.Moves stop now m w' ds)
    (hanswer : ∀ x o, w.inHand = some x → P x → P (Deliverable.answer x o).1)
    (hkept : ∀ x ∈ w.kept, P x) : (∀ x ∈ w'.kept, P x) ∧ ∀ a ∈ ds, P a.item := by
  -- every entry that is kept afterwards was kept before, or is the one that has been answered
  cases h with
  | @wake x rest hopen hhand hq =>
    rw [kept_of_open hopen] at hkept
    have hx : P x := hkept x (by simp [hq])
    refine ⟨fun y hy => ?_, by simpa [takeUp] using hx⟩
    rcases mem_kept_hold hy with rfl | hy | hy
    · exact hx
    · exact hkept y (by simp [show y ∈ w.delayed from hy])
    · exact hkept y (by simp [hq, show y ∈ rest from hy])
  | @tick x rest hopen hhand hdue hq =>
    rw [kept_of_open hopen] at hkept
    have hx : P x := hkept x (by simp [hq])
    refine ⟨fun y hy => ?_, by simpa [takeUp] using hx⟩
    rcases mem_kept_hold hy with rfl | hy | hy
    · exact hx
    · exact hkept y (by simp [hq, show y ∈ rest from hy])
    · exact hkept y (by simp [show y ∈ w.immediate from hy])
  | idle hopen hhand hdue hq himm =>
    refine ⟨fun y hy => hkept y ?_, by simp⟩
    simpa [kept, hopen] using hy
  | close hopen hhand hdue hq himm => exact ⟨by simp [kept], by simp⟩
  | @onward x o hopen hhand hwait =>
    have hx : P x := hkept x (mem_kept_of_inHand hopen hhand)
    rw [kept_of_open hopen] at hkept
    have hy : P (Deliverable.answer x o).1 := hanswer x o hhand hx
    refine ⟨fun y hy' => ?_, by simpa [takeUp] using ⟨hy, hx⟩⟩
    rcases mem_kept_hold hy' with rfl | hy' | hy'
    · exact hy
    · exact hkept y (by simp [hy'])
    · exact hkept y (by simp [hy'])
  | @back x o hopen hhand hwait =>
    have hx : P x := hkept x (mem_kept_of_inHand hopen hhand)
    have hy : P (Deliverable.answer x o).1 := hanswer x o hhand hx
    rw [kept_of_open hopen] at hkept
    refine ⟨fun y hy' => ?_, by simpa using hx⟩
    rw [kept_of_open (by exact hopen)] at hy'
    simp only [Option.toList_none, List.nil_append, List.mem_append, List.mem_cons] at hy'
    rcases hy' with (rfl | hy') | hy'
    · exact hy
    · exact hkept y (by simp [hy'])
    · exact hkept y (by simp [hy'])
  | halt hopen hhand hstop =>
    rw [kept_of_open hopen] at hkept
    refine ⟨by simp [kept, Worker.halt], fun a ha => ?_⟩
    obtain ⟨x, hx, rfl⟩ := List.mem_map.mp ha
    exact hkept x (List.mem_append_right _ hx)

/-- A worker makes calls only for entries with something left to deliver. -/
theorem Moves.isDone_inHand (h : w.Moves stop now m w' ds) {x : ε} (hx : w'.inHand = some x) :
    Deliverable.isDone x = false := by
  have key : ∀ (v : Worker ε) (y : ε), (v.hold y).inHand = some x →
      Deliverable.isDone x = false := by
    intro v y hy
    rw [inHand_hold, Option.ite_none_left_eq_some] at hy
    obtain ⟨hdone, hyx⟩ := hy
    obtain rfl := Option.some.inj hyx
    simpa using hdone
  cases h with
  | wake | tick | onward => exact key _ _ hx
  | idle hopen hhand | close hopen hhand | halt hopen hhand =>
    exact absurd (hx.symm.trans hhand) (by simp)
  | back => exact absurd hx (by simp)

/-- By its moves a worker gets no immediate entries. -/
theorem Moves.mem_immediate (h : w.Moves stop now m w' ds) {x : ε} (hx : x ∈ w'.immediate) :
    x ∈ w.immediate := by
  cases h with
  | wake hopen hhand hq =>
    rw [hq]
    exact List.mem_cons_of_mem _ hx
  | tick | idle | close | onward | back | halt => exact hx

/-- Workers take no entries in by their moves, and they drop entries only under the signal. -/
theorem Moves.turn_deed (h : w.Moves stop now m w' ds) {a : Deed ε} (ha : a ∈ ds) :
    a.turn ≠ .accepted ∧ (a.turn = .dropped → stop = true) := by
  have key : ∀ y : ε, (w.takeUp now y).turn ≠ .accepted ∧ (w.takeUp now y).turn ≠ .dropped := by
    intro y
    simp only [takeUp]
    split <;> simp
  cases h with
  | wake | tick =>
    rw [List.mem_singleton.mp ha]
    exact ⟨(key _).1, fun ht => absurd ht (key _).2⟩
  | onward =>
    rcases List.mem_cons.mp ha with rfl | ha
    · exact ⟨(key _).1, fun ht => absurd ht (key _).2⟩
    · simp [List.mem_singleton.mp ha]
  | idle | close => exact absurd ha List.not_mem_nil
  | back => simp [List.mem_singleton.mp ha]
  | halt hopen hhand hstop =>
    obtain ⟨x, -, rfl⟩ := List.mem_map.mp ha
    exact ⟨by simp, fun _ => hstop⟩

theorem Moves.items_accepted (h : w.Moves stop now m w' ds) : ds.items .accepted = [] := by
  rw [List.eq_nil_iff_forall_not_mem]
  intro x hx
  obtain ⟨a, ha, ht, -⟩ := Log.mem_items.mp hx
  exact (h.turn_deed ha).1 ht

/-- The entry for which a call is made is in hand. -/
theorem Moves.inHand_of_sent (h : w.Moves stop now m w' ds) {a : Deed ε} (ha : a ∈ ds)
    (ht : a.turn = .sent) : w'.closed = false ∧ w'.inHand = some a.item := by
  -- the deed of taking up is a call only if there is a unit left, and then the entry is in hand
  have key : ∀ (v : Worker ε) (y : ε), a = w.takeUp now y → (v.hold y).inHand = some a.item := by
    rintro v y rfl
    rw [inHand_hold, if_neg]
    · rfl
    · intro hdone
      simp [takeUp, hdone] at ht
  cases h with
  | wake hopen | tick hopen => exact ⟨hopen, key _ _ (List.mem_singleton.mp ha)⟩
  | onward hopen =>
    rcases List.mem_cons.mp ha with ha | ha
    · exact ⟨hopen, key _ _ ha⟩
    · rw [List.mem_singleton.mp ha] at ht
      cases ht
  | idle | close => exact absurd ha List.not_mem_nil
  | back =>
    rw [List.mem_singleton.mp ha] at ht
    cases ht
  | halt =>
    obtain ⟨x, -, rfl⟩ := List.mem_map.mp ha
    cases ht

/-- Of a finished entry nothing is left. -/
theorem Moves.isDone_of_finished (h : w.Moves stop now m w' ds) {a : Deed ε} (ha : a ∈ ds)
    (ht : a.turn = .finished) : Deliverable.isDone a.item = true := by
  have key : ∀ y : ε, a = w.takeUp now y → Deliverable.isDone a.item = true := by
    rintro y rfl
    cases hdone : Deliverable.isDone y with
    | false => simp [takeUp, hdone] at ht
    | true => exact hdone
  -- the end of an entry is the deed of a move that takes it up
  cases h with
  | wake | tick => exact key _ (List.mem_singleton.mp ha)
  | onward =>
    rcases List.mem_cons.mp ha with ha | ha
    · exact key _ ha
    · rw [List.mem_singleton.mp ha] at ht
      cases ht
  | idle | close => exact absurd ha List.not_mem_nil
  | back =>
    rw [List.mem_singleton.mp ha] at ht
    cases ht
  | halt =>
    obtain ⟨x, -, rfl⟩ := List.mem_map.mp ha
    cases ht

end Worker

/-! ### Bays -/

namespace Bay

/-- The entries in a bay. -/
def held (b : Bay ε) : List ε := b.handed ++ b.waiting ++ b.worker.elim [] Worker.kept

variable [Deliverable ε] {book : Nat → Int → Entry π → ε} {r : Int} {b b' : Bay ε} {ds : Log ε}

/-- Entries come in with the number and for the recipient that they are booked with. -/
theorem Step.accepted (h : Step book r b b' ds) {a : Deed ε} (ha : a ∈ ds)
    (ht : a.turn = .accepted) :
    b'.count = b.count + 1 ∧ ∃ e, a.item = book b.count r e := by
  cases h with
  | add e =>
    obtain rfl := List.mem_singleton.mp ha
    exact ⟨rfl, e, rfl⟩
  | @move w w' m hw hmove =>
    exact absurd ht ((Worker.moves_of_move? hmove).turn_deed ha).1
  | clear =>
    obtain ⟨x, -, rfl⟩ := List.mem_map.mp ha
    cases ht
  | _ => exact absurd ha List.not_mem_nil

/-- At most one entry comes in at a time. -/
theorem Step.items_accepted (h : Step book r b b' ds) :
    ds.items .accepted = [] ∨ ∃ x, ds.items .accepted = [x] := by
  cases h with
  | add e => exact .inr ⟨book b.count r e, by simp⟩
  | move hw hmove => exact .inl (Worker.moves_of_move? hmove).items_accepted
  | clear => exact .inl (Log.items_map ..)
  | _ => exact .inl rfl

/-- The entry for which a call is made is in the worker's hand. -/
theorem Step.inHand_of_sent (h : Step book r b b' ds) {a : Deed ε} (ha : a ∈ ds)
    (ht : a.turn = .sent) : ∃ w, b'.worker = some w ∧ w.closed = false ∧ w.inHand = some a.item := by
  cases h with
  | add e =>
    rw [List.mem_singleton.mp ha] at ht
    cases ht
  | @move w w' m hw hmove =>
    exact ⟨w', rfl, (Worker.moves_of_move? hmove).inHand_of_sent ha ht⟩
  | clear =>
    obtain ⟨x, -, rfl⟩ := List.mem_map.mp ha
    cases ht
  | _ => exact absurd ha List.not_mem_nil

/-- What is true of new entries, and survives an answer, is true of every entry in a bay and of
every deed. -/
theorem Step.forall_held {P : ε → Prop} (h : Step book r b b' ds)
    (hnew : ∀ a ∈ ds, a.turn = .accepted → P a.item)
    (hanswer : ∀ w x o, b.worker = some w → w.inHand = some x → P x →
      P (Deliverable.answer x o).1)
    (hheld : ∀ x ∈ b.held, P x) : (∀ x ∈ b'.held, P x) ∧ ∀ a ∈ ds, P a.item := by
  -- steps of the pool carry entries about; a move changes only what the worker keeps
  cases h with
  | add e =>
    have hx := hnew _ (List.mem_singleton_self _) rfl
    refine ⟨fun x hx' => ?_, by simpa using hx⟩
    simp only [held, List.mem_append, List.mem_singleton] at hx'
    rcases hx' with (hx' | hx' | rfl) | hx'
    · exact hheld x (by simp [held, hx'])
    · exact hheld x (by simp [held, hx'])
    · exact hx
    · exact hheld x (by simp [held, hx'])
  | @sweep w hw hclosed =>
    refine ⟨fun x hx => hheld x ?_, by simp⟩
    simp only [held, List.mem_append, Option.elim_none] at hx ⊢
    exact .inl (by simpa using hx)
  | withdraw hhanded =>
    refine ⟨fun x hx => hheld x ?_, by simp⟩
    simpa [held, hhanded] using hx
  | engage period hclosed =>
    refine ⟨fun x hx => hheld x ?_, by simp⟩
    simp only [held, List.mem_append] at hx ⊢
    exact .inl (by simpa [Worker.kept, Worker.new] using hx)
  | @give w w' hw hput =>
    refine ⟨fun x hx => hheld x ?_, by simp⟩
    simp only [held, hw, Option.elim_some, List.mem_append, List.nil_append,
      Worker.mem_kept_put hput] at hx ⊢
    tauto
  | requeue =>
    refine ⟨fun x hx => hheld x ?_, by simp⟩
    simpa [held] using hx
  | @move w w' m hw hmove =>
    have hkept := (Worker.moves_of_move? hmove).forall_kept
      (fun x o => hanswer w x o hw) fun x hx => hheld x (by simp [held, hw, hx])
    refine ⟨fun x hx => ?_, hkept.2⟩
    simp only [held, List.mem_append, Option.elim_some] at hx
    rcases hx with hx | hx
    · exact hheld x (List.mem_append_left _ (List.mem_append.mpr hx))
    · exact hkept.1 x hx
  | clear hstop =>
    refine ⟨fun x hx => hheld x ?_, fun a ha => ?_⟩
    · simp only [held, List.mem_append, List.append_nil] at hx ⊢
      tauto
    · obtain ⟨x, hx, rfl⟩ := List.mem_map.mp ha
      exact hheld x (by simp [held, hx])
  | other | signal | elapse | stay => exact ⟨hheld, by simp⟩

/-- In a bay calls are made only for entries with something left to deliver. -/
theorem Reachable.isDone_inHand {log : Log ε} (h : Reachable book r b log) {w : Worker ε} {x : ε}
    (hw : b.worker = some w) (hx : w.inHand = some x) : Deliverable.isDone x = false := by
  induction h generalizing w with
  | start => cases hw
  | @step b b' log ds h hstep ih =>
    cases hstep with
    | sweep => cases hw
    | engage period hclosed =>
      obtain rfl := Option.some.inj hw
      cases hx
    | @give v w' hv hput =>
      obtain rfl := Option.some.inj hw
      rw [(Worker.put_eq_ok hput).2] at hx
      exact ih hv hx
    | @move v w' m hv hmove =>
      obtain rfl := Option.some.inj hw
      exact (Worker.moves_of_move? hmove).isDone_inHand hx
    | add | other | withdraw | requeue | clear | signal | elapse | stay => exact ih hw hx

/-- Entries are finished when nothing is left to deliver. -/
theorem Reachable.isDone_of_finished {log : Log ε} (h : Reachable book r b log) {a : Deed ε}
    (ha : a ∈ log) (ht : a.turn = .finished) : Deliverable.isDone a.item = true := by
  induction h with
  | start => exact absurd ha List.not_mem_nil
  | step h hstep ih =>
    rcases List.mem_append.mp ha with ha | ha
    · cases hstep with
      | add =>
        rw [List.mem_singleton.mp ha] at ht
        cases ht
      | move hw hmove => exact (Worker.moves_of_move? hmove).isDone_of_finished ha ht
      | clear =>
        obtain ⟨x, -, rfl⟩ := List.mem_map.mp ha
        cases ht
      | _ => exact absurd ha List.not_mem_nil
    · exact ih ha

/-- Calls are made for entries with something left to deliver. -/
theorem Reachable.isDone_of_sent {log : Log ε} (h : Reachable book r b log) {a : Deed ε}
    (ha : a ∈ log) (ht : a.turn = .sent) : Deliverable.isDone a.item = false := by
  induction h with
  | start => exact absurd ha List.not_mem_nil
  | step h hstep ih =>
    rcases List.mem_append.mp ha with ha | ha
    · obtain ⟨w, hw, -, hhand⟩ := hstep.inHand_of_sent ha ht
      exact (h.step hstep).isDone_inHand hw hhand
    · exact ih ha

/-! ### Entries are what has come in -/

theorem Step.count_le (h : Step book r b b' ds) : b.count ≤ b'.count := by
  cases h with
  | add | other => exact Nat.le_succ _
  | _ => exact Nat.le_refl _

/-- The numbers of entries are smaller than the one that comes next. -/
theorem Reachable.number_lt {b : Bay (Tracked π)} {log : Log (Tracked π)}
    (h : Reachable Tracked.book r b log) :
    (∀ x ∈ b.held, x.number < b.count) ∧ ∀ a ∈ log, a.item.number < b.count := by
  induction h with
  | start => exact ⟨fun x hx => absurd hx List.not_mem_nil, fun a ha => absurd ha List.not_mem_nil⟩
  | @step b b' log ds h hstep ih =>
    have hstep' := hstep.forall_held (P := fun x => x.number < b'.count)
      (fun a ha ht => by
        obtain ⟨hcount, e, he⟩ := hstep.accepted ha ht
        rw [hcount, he]
        exact Nat.lt_succ_self _)
      (fun w x o hw hx hlt => hlt)
      (fun x hx => Nat.lt_of_lt_of_le (ih.1 x hx) hstep.count_le)
    refine ⟨hstep'.1, fun a ha => ?_⟩
    rcases List.mem_append.mp ha with ha | ha
    · exact hstep'.2 a ha
    · exact Nat.lt_of_lt_of_le (ih.2 a ha) hstep.count_le

/-- The entry has come in for a recipient, as a log tells, and what is left of it is what its
answers leave. -/
structure Known (r : Int) (log : Log (Tracked π)) (x : Tracked π) : Prop where
  valid : x.Valid
  booked : Tracked.book x.number r x.origin ∈ log.items .accepted

theorem Known.append {r : Int} {log : Log (Tracked π)} {x : Tracked π} (h : Known r log x)
    (ds : Log (Tracked π)) : Known r (ds ++ log) x :=
  ⟨h.valid, by rw [Log.items_append]; exact List.mem_append_right _ h.booked⟩

theorem Reachable.known {b : Bay (Tracked π)} {log : Log (Tracked π)}
    (h : Reachable Tracked.book r b log) :
    (∀ x ∈ b.held, Known r log x) ∧ ∀ a ∈ log, Known r log a.item := by
  induction h with
  | start => exact ⟨fun x hx => absurd hx List.not_mem_nil, fun a ha => absurd ha List.not_mem_nil⟩
  | @step b b' log ds h hstep ih =>
    -- new entries are known, and stay known when they are answered
    have hnew : ∀ a ∈ ds, a.turn = .accepted → Known r (ds ++ log) a.item := by
      intro a ha ht
      obtain ⟨-, e, he⟩ := hstep.accepted ha ht
      rw [he]
      refine ⟨Tracked.valid_book _ _ e, ?_⟩
      rw [Log.items_append]
      exact List.mem_append_left _ (Log.mem_items.mpr ⟨a, ha, ht, he⟩)
    have hanswer : ∀ w x o, b.worker = some w → w.inHand = some x → Known r (ds ++ log) x →
        Known r (ds ++ log) (Deliverable.answer x o).1 := by
      intro w x o hw hx hknown
      have hdone := h.isDone_inHand hw hx
      exact ⟨hknown.valid.answer (by simpa using hdone) o, hknown.booked⟩
    have hstep' := hstep.forall_held hnew hanswer fun x hx => (ih.1 x hx).append ds
    refine ⟨hstep'.1, fun a ha => ?_⟩
    rcases List.mem_append.mp ha with ha | ha
    · exact hstep'.2 a ha
    · exact (ih.2 a ha).append ds

end Bay

/-- The entries that are added, in their order, with their recipients. -/
def Event.added (events : List (Event π)) : List (Int × Entry π) :=
  events.filterMap fun
    | .add r e => some (r, e)
    | _ => none

theorem Event.added_append (events later : List (Event π)) :
    Event.added (events ++ later) = Event.added events ++ Event.added later :=
  List.filterMap_append

namespace Depot

variable [Deliverable ε] (book : Nat → Int → Entry π → ε)

/-- An event adds an entry, or nothing comes in; entries are dropped only under the signal. -/
theorem log_step (d : Depot ε) (e : Event π) :
    (∃ r x, e = .add r x ∧ (d.step book e).count = d.count + 1 ∧
      (d.step book e).log = ⟨.accepted, d.now, r, book d.count r x⟩ :: d.log) ∨
    Event.added [e] = [] ∧ (d.step book e).count = d.count ∧
      ∃ ds, (d.step book e).log = ds ++ d.log ∧
        ∀ a ∈ ds, a.turn ≠ .accepted ∧ (a.turn = .dropped → d.stop = true) := by
  have same : ∀ d' : Depot ε, d'.count = d.count → d'.log = d.log →
      d'.count = d.count ∧ ∃ ds, d'.log = ds ++ d.log ∧
        ∀ a ∈ ds, a.turn ≠ .accepted ∧ (a.turn = .dropped → d.stop = true) :=
    fun d' hcount hlog => ⟨hcount, [], hlog, fun a ha => absurd ha List.not_mem_nil⟩
  -- only an addition changes the count; moves and the clearing of the pool bring other deeds
  cases e with
  | add r x => exact .inl ⟨r, x, rfl, rfl, rfl⟩
  | begin order => exact .inr ⟨rfl, same _ (by simp only [step]; split <;> rfl)
      (by simp only [step]; split <;> rfl)⟩
  | proceed =>
    refine .inr ⟨rfl, ?_⟩
    simp only [step]
    split
    · rename_i p _
      obtain ⟨pool, pass, hframe⟩ := d.proceed_frame p
      rw [hframe]
      exact same _ rfl rfl
    · exact same _ rfl rfl
  | move r m =>
    refine .inr ⟨rfl, ?_⟩
    simp only [step]
    split
    · exact same _ rfl rfl
    · rename_i w hw
      split
      · exact same _ rfl rfl
      · rename_i w' hmove
        exact ⟨rfl, _, rfl, fun a ha => (Worker.moves_of_move? hmove).turn_deed ha⟩
  | clear =>
    refine .inr ⟨rfl, ?_⟩
    simp only [step]
    split
    · rename_i hstop
      refine ⟨rfl, _, rfl, fun a ha => ?_⟩
      obtain ⟨slot, -, ha⟩ := List.mem_flatMap.mp ha
      obtain ⟨x, -, rfl⟩ := List.mem_map.mp ha
      exact ⟨by simp, fun _ => hstop⟩
    · exact same _ rfl rfl
  | signal raised => exact .inr ⟨rfl, same _ rfl rfl⟩
  | elapse ms => exact .inr ⟨rfl, same _ rfl rfl⟩

theorem count_run (max period : Nat) (events : List (Event π)) :
    ((start max period).run book events).count = (Event.added events).length := by
  induction events using List.reverseRecOn with
  | nil => rfl
  | append_singleton events e ih =>
    rw [run_concat, Event.added_append, List.length_append, ← ih]
    rcases log_step book ((start max period).run book events) e with
      ⟨r, x, rfl, hcount, -⟩ | ⟨hadded, hcount, -⟩
    · exact hcount
    · rw [hcount, hadded]
      rfl

/-- What has come in is what was added, with its recipient and numbered in order. -/
theorem accepted_run (max period : Nat) (events : List (Event π)) {a : Deed ε}
    (ha : a ∈ ((start max period).run book events).log) (ht : a.turn = .accepted) :
    ∃ n e, (Event.added events)[n]? = some (a.recipient, e) ∧ a.item = book n a.recipient e := by
  induction events using List.reverseRecOn with
  | nil => exact absurd ha List.not_mem_nil
  | append_singleton events e ih =>
    rw [run_concat] at ha
    rw [Event.added_append]
    rcases log_step book ((start max period).run book events) e with
      ⟨r, x, rfl, -, hlog⟩ | ⟨hadded, -, ds, hlog, hds⟩
    · -- the new entry has the last place among those that were added
      rw [hlog, count_run] at ha
      rcases List.mem_cons.mp ha with rfl | ha
      · exact ⟨_, x, List.getElem?_concat_length, rfl⟩
      · obtain ⟨n, y, hn, hy⟩ := ih ha
        refine ⟨n, y, ?_, hy⟩
        rw [List.getElem?_append_left (List.getElem?_eq_some_iff.mp hn).1, hn]
    · rw [hadded, List.append_nil]
      rw [hlog] at ha
      rcases List.mem_append.mp ha with ha | ha
      · exact absurd ht (hds a ha).1
      · exact ih ha

/-- **Entries are what was added for their recipient.**  Every entry that is held or has a part in a
deed was added for this recipient, as its number tells, and what is left of it is what its answers
leave. -/
theorem known_run (max period : Nat) (events : List (Event π)) (r : Int) :
    let d := (start max period).run Tracked.book events
    (∀ x ∈ (d.bay r).held, x.Valid ∧ (Event.added events)[x.number]? = some (r, x.origin)) ∧
    ∀ a ∈ Log.of d.log r,
      a.item.Valid ∧ (Event.added events)[a.item.number]? = some (r, a.item.origin) := by
  intro d
  have hknown := (bay_reachable Tracked.book max period events r).known
  -- the booking of an entry and the event that added it have the same number
  have key : ∀ x, Bay.Known r (Log.of d.log r) x →
      x.Valid ∧ (Event.added events)[x.number]? = some (r, x.origin) := by
    intro x hx
    obtain ⟨a, ha, ht, hitem⟩ := Log.mem_items.mp hx.booked
    obtain ⟨ha, hrec⟩ := List.mem_filter.mp ha
    obtain ⟨n, e, hadded, hbook⟩ := accepted_run Tracked.book max period events ha ht
    rw [hitem, of_decide_eq_true hrec] at hbook
    rw [of_decide_eq_true hrec] at hadded
    have hnumber : x.number = n := congrArg Tracked.number hbook
    have horigin : x.origin = e := congrArg Tracked.origin hbook
    rw [hnumber, horigin]
    exact ⟨hx.valid, hadded⟩
  exact ⟨fun x hx => key x (hknown.1 x hx), fun a ha => key _ (hknown.2 a ha)⟩

end Depot

end Courier.Delivery

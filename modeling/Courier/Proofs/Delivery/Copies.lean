import Courier.Proofs.Delivery.Held

/-!
Counting entries.

`copies n` says how often the entry with number `n` occurs in a list.  Counting is how conservation
is proved here: lists are rearranged by every move, but sums are not, and what is left to show for a
move or a step is an equation that `omega` closes.

Every move of a worker and every step in a bay balances what is there before and what is there
afterwards (`Worker.Moves.copies_kept`, `Bay.Step.copies_held`), and over a run the balance is with
the entries that came in (`Bay.Reachable.copies_held`).

Numbers are given in the order of arrival, so no number comes in twice
(`Bay.Reachable.copies_accepted_le`), and no two entries in a bay have the same one
(`Bay.Reachable.eq_of_number_eq`).
-/

namespace Courier.Delivery

variable {π : Type}

/-- How often the entry with a number occurs. -/
def copies (n : Nat) (xs : List (Tracked π)) : Nat := xs.countP fun x => x.number = n

@[simp] theorem copies_nil (n : Nat) : copies n ([] : List (Tracked π)) = 0 := rfl

@[simp] theorem copies_cons (n : Nat) (x : Tracked π) (xs : List (Tracked π)) :
    copies n (x :: xs) = (if x.number = n then 1 else 0) + copies n xs := by
  simp [copies, List.countP_cons, Nat.add_comm]

@[simp] theorem copies_append (n : Nat) (xs ys : List (Tracked π)) :
    copies n (xs ++ ys) = copies n xs + copies n ys := List.countP_append

theorem copies_pos_iff {n : Nat} {xs : List (Tracked π)} :
    0 < copies n xs ↔ ∃ x ∈ xs, x.number = n := by
  simp [copies, List.countP_pos_iff]

theorem eq_of_copies_le_one {xs : List (Tracked π)} {x y : Tracked π}
    (h : copies x.number xs ≤ 1) (hx : x ∈ xs) (hy : y ∈ xs) (hxy : y.number = x.number) :
    x = y := by
  -- by induction on the list: two entries with the number would be counted twice
  induction xs with
  | nil => exact absurd hx List.not_mem_nil
  | cons z zs ih =>
    rw [copies_cons] at h
    rcases List.mem_cons.mp hx with rfl | hx
    · rcases List.mem_cons.mp hy with rfl | hy
      · rfl
      · have hpos := copies_pos_iff.mpr ⟨y, hy, hxy⟩
        rw [if_pos rfl] at h
        omega
    · have hpos := copies_pos_iff.mpr ⟨x, hx, rfl⟩
      rcases List.mem_cons.mp hy with rfl | hy
      · rw [if_pos hxy] at h
        omega
      · exact ih (by omega) hx hy

/-- The entries that are out of the system: those that are finished, and those that were dropped. -/
def Log.gone {ε : Type} (log : Log ε) : List ε := log.items .finished ++ log.items .dropped

/-! ### The balance of a step -/

theorem Worker.copies_put {n : Nat} {w w' : Worker (Tracked π)} {es : List (Tracked π)}
    (h : w.put es = .ok w') : copies n w'.kept = copies n w.kept + copies n es := by
  obtain ⟨hopen, rfl⟩ := put_eq_ok h
  have hsplit : copies n es = copies n (es.filter Deliverable.delay) +
      copies n (es.filter fun e => !Deliverable.delay e) :=
    List.countP_eq_countP_filter_add es _ _
  rw [kept_of_open hopen, kept_of_open (by exact hopen), hsplit]
  simp only [copies_append]
  omega

/-- After a move, the worker keeps what it kept before, except for what is gone. -/
theorem Worker.Moves.copies_kept {stop : Bool} {now : Nat} {w w' : Worker (Tracked π)} {m : Move}
    {ds : Log (Tracked π)} (h : w.Moves stop now m w' ds) (n : Nat) :
    copies n w'.kept + copies n (Log.gone ds) = copies n w.kept := by
  -- an entry that is taken up is in hand, or it is finished
  have key : ∀ (v : Worker (Tracked π)) (x : Tracked π), v.closed = false →
      copies n (v.hold x).kept + copies n (Log.gone [w.takeUp now x]) =
        copies n (x :: (v.delayed ++ v.immediate)) := by
    intro v x hv
    rw [kept_of_open (by exact hv), inHand_hold]
    cases hdone : Deliverable.isDone x
    · simp [takeUp, hdone, Log.gone]
    · simp [takeUp, hdone, Log.gone]
      omega
  -- what leaves a queue is taken up; what ends is among the deeds
  cases h with
  | @wake x rest hopen hhand hq =>
    rw [key { w with immediate := rest } x hopen, kept_of_open hopen, hhand, hq]
    simp
    omega
  | @tick x rest hopen hhand hdue hq =>
    rw [key { w with ticker := w.ticker.taken now, delayed := rest } x hopen, kept_of_open hopen,
      hhand, hq]
    simp
  | idle hopen => simp [kept, hopen, Log.gone]
  | close hopen hhand hdue hq himm => simp [kept, hhand, hq, himm, Log.gone]
  | @onward x o hopen hhand hwait =>
    have hgone : Log.gone [w.takeUp now (Deliverable.answer x o).1,
        (⟨.answered o, now, w.recipient, x⟩ : Deed (Tracked π))] =
        Log.gone [w.takeUp now (Deliverable.answer x o).1] := by
      simp [Log.gone]
    rw [hgone, key _ _ hopen, kept_of_open hopen, hhand]
    rfl
  | @back x o hopen hhand hwait =>
    rw [kept_of_open hopen, kept_of_open (by exact hopen), hhand]
    rfl
  | halt hopen hhand hstop =>
    have hgone : Log.gone ((w.delayed ++ w.immediate).map fun x =>
        (⟨.dropped, now, w.recipient, x⟩ : Deed (Tracked π))) = w.delayed ++ w.immediate := by
      rw [Log.gone, Log.items_map, Log.items_map]
      rfl
    rw [hgone, kept_of_open hopen, hhand, kept_of_closed rfl]
    simp

namespace Bay

variable {r : Int} {b b' : Bay (Tracked π)} {log ds : Log (Tracked π)}

/-- After a step, a bay holds what it held before and what has come in, except for what is gone. -/
theorem Step.copies_held (h : Step Tracked.book r b b' ds) (n : Nat) :
    copies n b'.held + copies n (Log.gone ds) =
      copies n b.held + copies n (ds.items .accepted) := by
  -- steps that only carry entries from one place to another leave the sum as it is
  cases h with
  | add e => simp [held, Log.gone]; omega
  | other | signal | elapse | stay => simp [held, Log.gone]
  | sweep hw hclosed => simp [held, hw, Worker.kept_of_closed hclosed, Log.gone]
  | withdraw hhanded => simp [held, hhanded, Log.gone]
  | engage period hclosed =>
    have hkept : b.worker.elim [] Worker.kept = [] := by
      rcases hw : b.worker with - | w
      · rfl
      · exact Worker.kept_of_closed (hclosed w hw)
    simp only [held, hkept]
    simp [Worker.kept, Worker.new, Log.gone]
  | give hw hput =>
    simp [held, hw, Worker.copies_put hput, Log.gone]
    omega
  | requeue => simp [held, Log.gone]
  | @move w w' m hw hmove =>
    have hmoves := Worker.moves_of_move? hmove
    have hkept := hmoves.copies_kept n
    simp only [held, hw, hmoves.items_accepted, Option.elim_some, copies_append, copies_nil]
    omega
  | clear hstop =>
    simp [held, Log.gone, Log.items_map]
    omega

/-- **Nothing is lost and nothing is duplicated.**  What a bay holds and what is gone is what has
come in. -/
theorem Reachable.copies_held (h : Reachable Tracked.book r b log) (n : Nat) :
    copies n b.held + copies n log.gone = copies n (log.items .accepted) := by
  induction h with
  | start => rfl
  | @step b b' log ds h hstep ih =>
    have hbalance := hstep.copies_held n
    simp only [Log.gone, Log.items_append, copies_append] at hbalance ih ⊢
    omega

/-- No number comes in twice. -/
theorem Reachable.copies_accepted_le (h : Reachable Tracked.book r b log) (n : Nat) :
    copies n (log.items .accepted) ≤ 1 := by
  induction h with
  | start => exact Nat.zero_le _
  | @step b b' log ds h hstep ih =>
    rw [Log.items_append, copies_append]
    rcases hstep.items_accepted with hitems | ⟨x, hitems⟩
    · rw [hitems, copies_nil, Nat.zero_add]
      exact ih
    · rw [hitems, copies_cons, copies_nil]
      split
      · -- the numbers that have come in before are smaller
        rename_i hx
        have hnumber : x.number = b.count := by
          obtain ⟨a, ha, ht, rfl⟩ := Log.mem_items.mp (hitems ▸ List.mem_singleton_self x)
          obtain ⟨-, e, he⟩ := hstep.accepted ha ht
          rw [he]
          rfl
        have hzero : ¬0 < copies n (log.items .accepted) := by
          rw [copies_pos_iff]
          rintro ⟨y, hy, hyn⟩
          obtain ⟨a, ha, -, rfl⟩ := Log.mem_items.mp hy
          have hlt := h.number_lt.2 a ha
          omega
        omega
      · omega

/-- No two entries in a bay have the same number. -/
theorem Reachable.eq_of_number_eq (h : Reachable Tracked.book r b log) {x y : Tracked π}
    (hx : x ∈ b.held) (hy : y ∈ b.held) (hxy : y.number = x.number) : x = y := by
  have hcopies := h.copies_held x.number
  have hle := h.copies_accepted_le x.number
  exact eq_of_copies_le_one (by omega) hx hy hxy

end Bay

end Courier.Delivery

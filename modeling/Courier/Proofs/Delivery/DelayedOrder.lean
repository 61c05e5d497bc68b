import Courier.Proofs.Delivery.Copies

/-!
Delayed entries go out in the order in which they come in.

The delayed entries of a recipient form one line from the worker's hand, through the worker's queue
and the entries on their way to it, to the slot in the pool.  Its numbers (`Bay.order`) only ever
lose some, wherever they are, and get new ones at the end (`Bay.Step.order`); so they ascend.  A
call for a delayed entry is always made for the first one in line (`Bay.Step.head_order`), so that
no call for an earlier one comes later.  Both are in the invariant `Bay.InOrder`, together with what
is needed to go on: all that has been called for comes before all that is still in line.

Within an entry the units go out in order because an entry that is held has never been further on
than it is (`Bay.Progress`).  This needs that numbers are given once, so that the entry in hand is
the only one with its number.

Immediate entries overtake all others; one that has to wait is put in front of the line, where it
does not count.  Nothing is assumed about when passes are made, whether there is room, or how calls
are answered, since sublists do not care about when entries are lost.

Main statement: in every run all calls for a delayed entry come before all calls for one that was
added later for the same recipient, and the units of an entry go out in order
(`Depot.delayed_in_order`).
-/

namespace Courier.Delivery

variable {ε π : Type} [Deliverable ε]

namespace Worker

/-- The entry in hand and those that wait for a tick. -/
def line (w : Worker ε) : List ε := if w.closed then [] else w.inHand.toList ++ w.delayed

omit [Deliverable ε] in
theorem line_of_open {w : Worker ε} (h : w.closed = false) :
    w.line = w.inHand.toList ++ w.delayed := by
  simp [line, h]

omit [Deliverable ε] in
theorem line_of_closed {w : Worker ε} (h : w.closed = true) : w.line = [] := by
  simp [line, h]

end Worker

/-- The numbers of the delayed entries in a list. -/
def delayedNumbers (xs : List (Tracked π)) : List Nat :=
  (xs.filter Deliverable.delay).map Tracked.number

@[simp] theorem delayedNumbers_nil : delayedNumbers ([] : List (Tracked π)) = [] := rfl

@[simp] theorem delayedNumbers_cons (x : Tracked π) (xs : List (Tracked π)) :
    delayedNumbers (x :: xs) =
      if x.rest.delay then x.number :: delayedNumbers xs else delayedNumbers xs := by
  cases h : x.rest.delay <;> simp [delayedNumbers, h]

@[simp] theorem delayedNumbers_append (xs ys : List (Tracked π)) :
    delayedNumbers (xs ++ ys) = delayedNumbers xs ++ delayedNumbers ys := by
  simp [delayedNumbers]

@[simp] theorem delayedNumbers_filter (xs : List (Tracked π)) :
    delayedNumbers (xs.filter Deliverable.delay) = delayedNumbers xs := by
  rw [delayedNumbers, List.filter_filter]
  simp only [Bool.and_self, delayedNumbers]

/-- By a move a worker may lose delayed entries, but their order stays. -/
theorem Worker.Moves.delayedNumbers_line {stop : Bool} {now : Nat} {w w' : Worker (Tracked π)}
    {m : Move} {ds : Log (Tracked π)} (h : w.Moves stop now m w' ds)
    (himm : ∀ x ∈ w.immediate, Deliverable.delay x = false) :
    (delayedNumbers w'.line).Sublist (delayedNumbers w.line) := by
  -- an entry that is taken up is in hand, or it is gone
  have key : ∀ (v : Worker (Tracked π)) (x : Tracked π), v.closed = false →
      (delayedNumbers (v.hold x).line).Sublist (delayedNumbers (x :: v.delayed)) := by
    intro v x hv
    rw [line_of_open (by exact hv), inHand_hold]
    cases hdone : Deliverable.isDone x
    · exact List.Sublist.refl _
    · cases hdelay : x.rest.delay <;> simp [hdelay]
  -- a delayed entry is taken from the front of the queue and put back there
  cases h with
  | @wake x rest hopen hhand hq =>
    -- entries in the immediate queue do not count
    have hx : x.rest.delay = false := himm x (by simp [hq])
    have hline := key { w with immediate := rest } x hopen
    rw [show w.line = w.delayed by simp [line, hopen, hhand]]
    simpa [hx] using hline
  | @tick x rest hopen hhand hdue hq =>
    rw [show w.line = x :: rest by simp [line, hopen, hhand, hq]]
    exact key { w with ticker := w.ticker.taken now, delayed := rest } x hopen
  | idle => exact List.Sublist.refl _
  | close => simp [line]
  | @onward x o hopen hhand hwait =>
    have hline := key w (Deliverable.answer x o).1 hopen
    rw [line_of_open hopen, hhand]
    simpa using hline
  | @back x o hopen hhand hwait =>
    rw [line_of_open hopen, line_of_open (by exact hopen), hhand]
    simp
  | halt =>
    rw [line_of_closed rfl]
    exact List.nil_sublist _

namespace Bay

/-- The numbers of the delayed entries in a bay, as they are in line. -/
def order (b : Bay (Tracked π)) : List Nat :=
  delayedNumbers (b.worker.elim [] Worker.line) ++ delayedNumbers b.handed ++
    delayedNumbers b.waiting

variable {r : Int} {b b' : Bay (Tracked π)} {log ds : Log (Tracked π)}

/-- Immediate queues hold immediate entries. -/
theorem Reachable.immediate {ε : Type} [Deliverable ε] {book : Nat → Int → Entry π → ε} {b : Bay ε}
    {log : Log ε} (h : Reachable book r b log) {w : Worker ε} (hw : b.worker = some w) :
    ∀ x ∈ w.immediate, Deliverable.delay x = false := by
  -- entries get into the immediate queue when they are put in, by their class
  induction h generalizing w with
  | start => cases hw
  | step h hstep ih =>
    cases hstep with
    | sweep => cases hw
    | engage =>
      obtain rfl := Option.some.inj hw
      exact fun x hx => absurd hx List.not_mem_nil
    | give hv hput =>
      obtain rfl := Option.some.inj hw
      rw [(Worker.put_eq_ok hput).2]
      intro x hx
      rcases List.mem_append.mp hx with hx | hx
      · exact ih hv x hx
      · simpa using (List.mem_filter.mp hx).2
    | @move v w' m hv hmove =>
      obtain rfl := Option.some.inj hw
      exact fun x hx => ih hv x ((Worker.moves_of_move? hmove).mem_immediate hx)
    | add | other | withdraw | requeue | clear | signal | elapse | stay => exact ih hw

/-- In a step delayed entries may leave the line, and new ones stand in line at the end. -/
theorem Step.order (h : Step Tracked.book r b b' ds)
    (himm : ∀ w, b.worker = some w → ∀ x ∈ w.immediate, Deliverable.delay x = false) :
    b'.order.Sublist (b.order ++ delayedNumbers (ds.items .accepted)) := by
  -- steps within the line leave it as it is; what is withdrawn moves up by one place
  cases h with
  | add e => simp [Bay.order]
  | other | signal | elapse | stay => simp [Bay.order]
  | sweep hw hclosed => simp [Bay.order, hw, Worker.line_of_closed hclosed]
  | withdraw hhanded => simp [Bay.order, hhanded]
  | engage period hclosed =>
    have hline : b.worker.elim [] Worker.line = [] := by
      rcases hw : b.worker with - | w
      · rfl
      · exact Worker.line_of_closed (hclosed w hw)
    simp only [Bay.order, hline]
    simp [Worker.line, Worker.new]
  | give hw hput =>
    obtain ⟨hopen, rfl⟩ := Worker.put_eq_ok hput
    simp only [Bay.order, hw, Option.elim_some]
    rw [Worker.line_of_open hopen, Worker.line_of_open (by exact hopen)]
    simp
  | requeue => simp [Bay.order]
  | @move w w' m hw hmove =>
    have hmoves := Worker.moves_of_move? hmove
    have hline := hmoves.delayedNumbers_line (himm w hw)
    simp only [Bay.order, hw, Option.elim_some, List.append_assoc]
    exact hline.append (by simp)
  | clear hstop =>
    simp only [Bay.order, delayedNumbers_nil, List.append_nil]
    exact (List.sublist_append_left _ _).trans (List.sublist_append_left _ _)

theorem mem_held_of_mem_order {n : Nat} (h : n ∈ b.order) : ∃ x ∈ b.held, x.number = n := by
  have hline : ∀ w : Worker (Tracked π), ∀ x ∈ w.line, x ∈ w.kept := by
    intro w x hx
    unfold Worker.line at hx
    split at hx
    · exact absurd hx List.not_mem_nil
    · rename_i hopen
      rw [Worker.kept_of_open (by simpa using hopen), ← List.append_assoc]
      exact List.mem_append_left _ hx
  simp only [order, delayedNumbers, ← List.map_append, ← List.filter_append] at h
  obtain ⟨x, hx, rfl⟩ := List.mem_map.mp h
  refine ⟨x, ?_, rfl⟩
  have hmem := (List.mem_filter.mp hx).1
  simp only [List.mem_append] at hmem
  -- in the line of the worker, on its way, or in the slot
  rcases hmem with (hmem | hmem) | hmem
  · rcases hw : b.worker with - | w
    · rw [hw] at hmem
      exact absurd hmem List.not_mem_nil
    · rw [hw] at hmem
      exact List.mem_append_right _ (by simpa [hw] using hline w x hmem)
  · exact List.mem_append_left _ (List.mem_append_left _ hmem)
  · exact List.mem_append_left _ (List.mem_append_right _ hmem)

theorem Step.item_eq_of_sent (h : Step Tracked.book r b b' ds) {a a' : Deed (Tracked π)}
    (ha : a ∈ ds) (ht : a.turn = .sent) (ha' : a' ∈ ds) (ht' : a'.turn = .sent) :
    a.item = a'.item := by
  obtain ⟨w, hw, -, hhand⟩ := h.inHand_of_sent ha ht
  obtain ⟨w', hw', -, hhand'⟩ := h.inHand_of_sent ha' ht'
  obtain rfl := Option.some.inj (hw.symm.trans hw')
  exact Option.some.inj (hhand.symm.trans hhand')

/-- A call for a delayed entry is a call for the first one in line. -/
theorem Step.head_order (h : Step Tracked.book r b b' ds) {a : Deed (Tracked π)} (ha : a ∈ ds)
    (ht : a.turn = .sent) (hdelay : a.item.rest.delay = true) :
    ∃ rest, b'.order = a.item.number :: rest := by
  obtain ⟨w, hw, hopen, hhand⟩ := h.inHand_of_sent ha ht
  simp [Bay.order, hw, Worker.line_of_open hopen, hhand, hdelay]

/-- The delayed entries in line ascend, and no call has been made for a later one.

* `calls`: calls for delayed entries go by their numbers; the log has the newest first. -/
structure InOrder (b : Bay (Tracked π)) (log : Log (Tracked π)) : Prop where
  ascending : b.order.Pairwise (· < ·)
  called : ∀ a ∈ log, a.turn = .sent → a.item.rest.delay = true →
    ∀ n ∈ b.order, a.item.number ≤ n
  calls : (log.items .sent).Pairwise fun later earlier =>
    later.rest.delay = true → earlier.rest.delay = true → earlier.number ≤ later.number

/-- A new entry gets the number that comes next. -/
theorem Step.eq_count (h : Step Tracked.book r b b' ds) {n : Nat}
    (hn : n ∈ delayedNumbers (ds.items .accepted)) : n = b.count := by
  obtain ⟨x, hx, rfl⟩ := List.mem_map.mp hn
  obtain ⟨a, ha, ht, rfl⟩ := Log.mem_items.mp (List.mem_filter.mp hx).1
  obtain ⟨-, e, he⟩ := h.accepted ha ht
  rw [he]
  rfl

/-- New entries stand in line behind those with smaller numbers. -/
theorem Step.ascending (hstep : Step Tracked.book r b b' ds) (h : Reachable Tracked.book r b log)
    (hascending : b.order.Pairwise (· < ·)) : b'.order.Pairwise (· < ·) := by
  have horder := hstep.order fun w hw => h.immediate hw
  refine List.Pairwise.sublist horder (List.pairwise_append.mpr ⟨hascending, ?_, ?_⟩)
  · rcases hstep.items_accepted with hitems | ⟨x, hitems⟩
    · rw [hitems]
      exact List.Pairwise.nil
    · rw [hitems, delayedNumbers_cons]
      split <;> simp
  · intro n hn k hk
    obtain ⟨x, hx, rfl⟩ := mem_held_of_mem_order hn
    rw [hstep.eq_count hk]
    exact h.number_lt.1 x hx

theorem InOrder.step (hinOrder : InOrder b log) (h : Reachable Tracked.book r b log)
    (hstep : Step Tracked.book r b b' ds) : InOrder b' (ds ++ log) := by
  have hascending := hstep.ascending h hinOrder.ascending
  -- an older call was for an entry before all that was in line, and what is new comes later still
  have hcalled : ∀ a ∈ log, a.turn = .sent → a.item.rest.delay = true →
      ∀ n ∈ b'.order, a.item.number ≤ n := by
    intro a ha ht hdelay n hn
    rcases List.mem_append.mp ((hstep.order fun w hw => h.immediate hw).subset hn) with hn | hn
    · exact hinOrder.called a ha ht hdelay n hn
    · rw [hstep.eq_count hn]
      exact Nat.le_of_lt (h.number_lt.2 a ha)
  refine ⟨hascending, fun a ha ht hdelay n hn => ?_, ?_⟩
  · -- a new call is for the first in line, older ones were for entries before all in line
    rcases List.mem_append.mp ha with ha | ha
    · obtain ⟨rest, hrest⟩ := hstep.head_order ha ht hdelay
      rw [hrest] at hn hascending
      rcases List.mem_cons.mp hn with rfl | hn
      · exact Nat.le_refl _
      · exact Nat.le_of_lt (List.rel_of_pairwise_cons hascending hn)
    · exact hcalled a ha ht hdelay n hn
  · rw [Log.items_append]
    refine List.pairwise_append.mpr ⟨?_, hinOrder.calls, ?_⟩
    · -- there is only one call at a time
      refine List.pairwise_of_forall_mem_list fun x hx y hy _ _ => ?_
      obtain ⟨a, ha, ht, rfl⟩ := Log.mem_items.mp hx
      obtain ⟨a', ha', ht', rfl⟩ := Log.mem_items.mp hy
      exact Nat.le_of_eq (congrArg Tracked.number (hstep.item_eq_of_sent ha' ht' ha ht))
    · -- the newer call is for an entry that was in line when the older one was made
      intro x hx y hy hxdelay hydelay
      obtain ⟨a, ha, ht, rfl⟩ := Log.mem_items.mp hx
      obtain ⟨a', ha', ht', rfl⟩ := Log.mem_items.mp hy
      obtain ⟨rest, hrest⟩ := hstep.head_order ha ht hxdelay
      exact hcalled a' ha' ht' hydelay _ (by rw [hrest]; exact List.mem_cons_self)

theorem Reachable.inOrder (h : Reachable Tracked.book r b log) : InOrder b log := by
  induction h with
  | start => exact ⟨List.Pairwise.nil, fun a ha => absurd ha List.not_mem_nil, List.Pairwise.nil⟩
  | step h hstep ih => exact ih.step h hstep

/-- The entry has got as far as the calls for it. -/
def Reached (log : Log (Tracked π)) (x : Tracked π) : Prop :=
  ∀ a ∈ log, a.turn = .sent → x.number = a.item.number → a.item.index ≤ x.index

/-- No entry in a bay is behind where a call has been made for it.

* `calls`: calls for an entry go by its units; the log has the newest first. -/
structure Progress (b : Bay (Tracked π)) (log : Log (Tracked π)) : Prop where
  reached : ∀ x ∈ b.held, Reached log x
  calls : (log.items .sent).Pairwise fun later earlier =>
    later.number = earlier.number → earlier.index ≤ later.index

theorem Progress.step (hprogress : Progress b log) (h : Reachable Tracked.book r b log)
    (hstep : Step Tracked.book r b b' ds) : Progress b' (ds ++ log) := by
  have hnew : ∀ a ∈ ds, a.turn = .accepted → Reached log a.item := by
    -- no call was made for a number that is only given now
    intro a ha ht a' ha' _ hnumber
    obtain ⟨-, e, he⟩ := hstep.accepted ha ht
    have hlt := h.number_lt.2 a' ha'
    rw [← hnumber, he] at hlt
    exact absurd hlt (Nat.lt_irrefl _)
  have hanswer : ∀ w x o, b.worker = some w → w.inHand = some x → Reached log x →
      Reached log (Deliverable.answer x o).1 := by
    intro w x o hw hx hbefore a ha ht hnumber
    exact Nat.le_trans (hbefore a ha ht hnumber) (x.index_le_index_answer o)
  have hreached := hstep.forall_held hnew hanswer hprogress.reached
  refine ⟨fun x hx a ha ht hnumber => ?_, ?_⟩
  · -- the entry of a new call is in hand, and no other one has its number
    rcases List.mem_append.mp ha with ha | ha
    · have hheld : a.item ∈ b'.held := by
        obtain ⟨w, hw, hopen, hhand⟩ := hstep.inHand_of_sent ha ht
        refine List.mem_append_right _ ?_
        rw [hw]
        exact Worker.mem_kept_of_inHand hopen hhand
      have hsame := (h.step hstep).eq_of_number_eq hheld hx hnumber
      exact Nat.le_of_eq (congrArg Tracked.index hsame)
    · exact hreached.1 x hx a ha ht hnumber
  · rw [Log.items_append]
    refine List.pairwise_append.mpr ⟨?_, hprogress.calls, ?_⟩
    · -- there is only one call at a time
      refine List.pairwise_of_forall_mem_list fun x hx y hy _ => ?_
      obtain ⟨a, ha, ht, rfl⟩ := Log.mem_items.mp hx
      obtain ⟨a', ha', ht', rfl⟩ := Log.mem_items.mp hy
      exact Nat.le_of_eq (congrArg Tracked.index (hstep.item_eq_of_sent ha' ht' ha ht))
    · intro x hx y hy hnumber
      obtain ⟨a, ha, ht, rfl⟩ := Log.mem_items.mp hx
      obtain ⟨a', ha', ht', rfl⟩ := Log.mem_items.mp hy
      exact hreached.2 a ha a' ha' ht' hnumber

theorem Reachable.progress (h : Reachable Tracked.book r b log) : Progress b log := by
  induction h with
  | start => exact ⟨fun x hx => absurd hx List.not_mem_nil, List.Pairwise.nil⟩
  | step h hstep ih => exact ih.step h hstep

end Bay

namespace Depot

/-- The calls made to a recipient, in the order in which they were made: for each the entry as it
was then, its first unit being the one that was sent. -/
def attempts {ε : Type} (d : Depot ε) (r : Int) : List ε := ((Log.of d.log r).items .sent).reverse

/-- Where a relation holds of any two places in their order, places of which it does not hold come
in the other order. -/
theorem lt_of_not_rel {α : Type} {R : α → α → Prop} {l : List α} (h : l.Pairwise R) {i j : Nat}
    {x y : α} (hi : l[i]? = some x) (hj : l[j]? = some y) (hR : ¬R y x) (hxy : x ≠ y) : i < j := by
  obtain ⟨hil, rfl⟩ := List.getElem?_eq_some_iff.mp hi
  obtain ⟨hjl, rfl⟩ := List.getElem?_eq_some_iff.mp hj
  rcases Nat.lt_trichotomy i j with hlt | rfl | hlt
  · exact hlt
  · exact absurd rfl hxy
  · exact absurd (List.pairwise_iff_getElem.mp h j i hjl hil hlt) hR

/-- **Delayed entries of a recipient go out first in, first out, from end to end.**  In every run,
whatever is added for whomever, in which order passes and workers go on, whether there is room for
workers, and however calls are answered: every call for a delayed entry comes before every call for
one that was added later for the same recipient, and within an entry every call for a unit comes
before every call for a later one. -/
theorem delayed_in_order (max period : Nat) (events : List (Event π)) (r : Int) :
    let calls := ((start max period).run Tracked.book events).attempts r
    (∀ (i j : Nat) (x y : Tracked π), calls[i]? = some x → calls[j]? = some y →
      x.origin.delay = true → y.origin.delay = true → x.number < y.number → i < j) ∧
    (∀ (i j : Nat) (x y : Tracked π), calls[i]? = some x → calls[j]? = some y →
      x.number = y.number → x.index < y.index → i < j) ∧
    ∀ x ∈ calls, (Event.added events)[x.number]? = some (r, x.origin) ∧ x.rest.units ≠ [] ∧
      x.rest.units.map Unit.payload = (x.origin.units.map Unit.payload).drop x.index := by
  intro calls
  have hreach := bay_reachable Tracked.book max period events r
  have hknown : ∀ x ∈ calls, x.Valid ∧ (Event.added events)[x.number]? = some (r, x.origin) ∧
      x.rest.units ≠ [] := by
    intro x hx
    obtain ⟨a, ha, ht, rfl⟩ := Log.mem_items.mp (List.mem_reverse.mp hx)
    obtain ⟨hvalid, hadded⟩ := (known_run max period events r).2 a ha
    exact ⟨hvalid, hadded, by simpa using hreach.isDone_of_sent ha ht⟩
  refine ⟨fun i j x y hi hj hx hy hxy => ?_, fun i j x y hi hj hnumber hindex => ?_,
    fun x hx => ?_⟩
  · -- were the later entry called for first, its call would be the older of the pair
    refine lt_of_not_rel (List.pairwise_reverse.mpr hreach.inOrder.calls) hi hj ?_ ?_
    · intro hR
      have hx' := (hknown x (List.mem_of_getElem? hi)).1.delay
      have hy' := (hknown y (List.mem_of_getElem? hj)).1.delay
      exact absurd (hR (hx'.trans hx) (hy'.trans hy)) (Nat.not_le_of_lt hxy)
    · rintro rfl
      exact absurd hxy (Nat.lt_irrefl _)
  · -- the same for two calls for one entry, by how far it had got
    refine lt_of_not_rel (List.pairwise_reverse.mpr hreach.progress.calls) hi hj ?_ ?_
    · intro hR
      exact absurd (hR hnumber) (Nat.not_le_of_lt hindex)
    · rintro rfl
      exact absurd hindex (Nat.lt_irrefl _)
  · obtain ⟨hvalid, hadded, hunits⟩ := hknown x hx
    exact ⟨hadded, hunits, hvalid.payloads hunits⟩

/-- Two delayed entries come in together; the first one is told to wait and is called for again
before the second one. -/
def pair : List (Event Nat) :=
  [.add 7 ⟨[.new 10 3], true⟩, .add 7 ⟨[.new 11 3], true⟩, .begin [7], .proceed, .proceed, .proceed,
    .elapse 1000, .move 7 .tick, .move 7 (.answer (.rateLimited 500)), .elapse 500, .move 7 .tick,
    .move 7 (.answer .delivered), .elapse 1000, .move 7 .tick]

theorem delayed_in_order_pair :
    (((start 1 1000).run Tracked.book pair).attempts 7).map Tracked.number = [0, 0, 1] ∧
      ∃ x y, (((start 1 1000).run Tracked.book pair).attempts 7)[1]? = some x ∧
        (((start 1 1000).run Tracked.book pair).attempts 7)[2]? = some y ∧
        x.origin.delay = true ∧ y.origin.delay = true ∧ x.number < y.number ∧ 1 < 2 := by
  refine ⟨rfl, _, _, rfl, rfl, rfl, rfl, by decide, ?_⟩
  exact (delayed_in_order 1 1000 pair 7).1 1 2 _ _ rfl rfl rfl rfl (by decide)

end Depot

end Courier.Delivery

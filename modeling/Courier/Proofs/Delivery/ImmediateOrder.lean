import Courier.Proofs.Delivery.Overtaking

/-!
In which order immediate entries go out.

The immediate queue is first in, first out, and an entry that is never asked to wait goes out in
turn.  One that is asked to wait leaves the queue for the delayed one, and the worker turns to what
is left in the immediate queue before it polls.  So an immediate entry is called for after one that
came in later only if it was asked to wait before that (`InTurn`), and when it is asked to wait, all
immediate entries that have come in by then are called for before it is tried again (`Cleared`).

What holds of every call is said of the part of the log that is older than the call; the parts of a
log are its suffixes, as the newest deed comes first.

There are two invariants of a worker at work, and each says of the log what is to be proved of it,
and of the queues what is needed to go on.  For the first (`Shift.Orderly`) the immediate queue is
in ascending order, and what is left over in hand or in the delayed queue either comes before all of
it or was asked to wait.  For the second (`Shift.Yielding`) nothing in the immediate queue has been
asked to wait, and a worker that polls has nothing in its queue from before the request.  Both are
kept by every move, by what is put in and by every step (`Shift.Orderly.step`,
`Shift.Yielding.step`), so they hold of every run.  That numbers are given in the order of arrival,
and each to one entry, is taken from `Shift.Sound`.

Main statement: both laws, and runs in which an entry is overtaken, for every period, wait and
lateness (`Shift.immediate_in_order_unless_asked`).
-/

namespace Courier.Delivery

variable {π : Type}

/-- The deeds older than one of several logs put together. -/
theorem suffix_append_cases {α : Type} {a : α} {older ds log : List α}
    (h : a :: older <:+ ds ++ log) : a ∈ ds ∧ log <:+ older ∨ a :: older <:+ log := by
  induction ds with
  | nil => exact .inr h
  | cons d ds ih =>
    rcases List.suffix_cons_iff.mp h with heq | hsuffix
    · obtain ⟨rfl, rfl⟩ := List.cons.inj heq
      exact .inl ⟨List.mem_cons_self, List.suffix_append ds log⟩
    · rcases ih hsuffix with ⟨hmem, hlog⟩ | hlog
      · exact .inl ⟨List.mem_cons_of_mem _ hmem, hlog⟩
      · exact .inr hlog

/-! ### Out of turn -/

/-- The entry with number `n` has been asked to wait. -/
def Asked (n : Nat) (log : Log (Tracked π)) : Prop := ∃ a ∈ log, a.wait ≠ 0 ∧ a.item.number = n

/-- A deed is a call for an immediate entry. -/
def Deed.CallsImmediate (a : Deed (Tracked π)) : Prop :=
  a.turn = .sent ∧ a.item.rest.delay = false

/-- The entry with number `n` was asked to wait before any immediate entry that came in later was
called for. -/
def Excused (n : Nat) (log : Log (Tracked π)) : Prop :=
  ∀ a older, a :: older <:+ log → a.CallsImmediate → n < a.item.number → Asked n older

/-- Immediate entries are called for in turn, unless they are asked to wait. -/
def InTurn (log : Log (Tracked π)) : Prop :=
  ∀ a older, a :: older <:+ log → a.CallsImmediate → Excused a.item.number older

section

variable {n : Nat} {log ds : Log (Tracked π)}

theorem Asked.mono (h : Asked n log) {log' : Log (Tracked π)} (hlog : log <:+ log') :
    Asked n log' := by
  obtain ⟨a, ha, hwait, hnumber⟩ := h
  exact ⟨a, hlog.subset ha, hwait, hnumber⟩

/-- Deeds may be added that are no calls for later entries, or after the entry was asked to wait. -/
theorem Excused.append (h : Excused n log)
    (hds : ∀ a ∈ ds, a.CallsImmediate → n < a.item.number → Asked n log) :
    Excused n (ds ++ log) := by
  intro a older hsuffix hcalls hlt
  rcases suffix_append_cases hsuffix with ⟨ha, hlog⟩ | hsuffix
  · exact (hds a ha hcalls hlt).mono hlog
  · exact h a older hsuffix hcalls hlt

/-- An entry is excused when no later one has been called for. -/
theorem excused_of_forall_lt (h : ∀ a ∈ log, a.CallsImmediate → a.item.number < n) :
    Excused n log := by
  intro a older hsuffix hcalls hlt
  have hgt := h a (hsuffix.subset List.mem_cons_self) hcalls
  omega

/-- Deeds may be added that are no calls for immediate entries. -/
theorem InTurn.append (h : InTurn log) (hds : ∀ a ∈ ds, ¬a.CallsImmediate) :
    InTurn (ds ++ log) := by
  intro a older hsuffix hcalls
  rcases suffix_append_cases hsuffix with ⟨ha, -⟩ | hsuffix
  · exact absurd hcalls (hds a ha)
  · exact h a older hsuffix hcalls

theorem InTurn.cons (h : InTurn log) {a : Deed (Tracked π)}
    (ha : a.CallsImmediate → Excused a.item.number log) : InTurn (a :: log) := by
  intro b older hsuffix hcalls
  rcases List.suffix_cons_iff.mp hsuffix with heq | hsuffix
  · obtain ⟨rfl, rfl⟩ := List.cons.inj heq
    exact ha hcalls
  · exact h b older hsuffix hcalls

end

namespace Shift

/-- Immediate entries go out in turn, unless they are asked to wait.

* `called`: what is in the immediate queue came in after all immediate entries that have left it. -/
structure Orderly (s : Shift (Tracked π)) : Prop where
  calls : InTurn s.log
  ascending : (s.worker.immediate.map Tracked.number).Pairwise (· < ·)
  called : ∀ a ∈ s.log, a.CallsImmediate → ∀ z ∈ s.worker.immediate, a.item.number < z.number
  left : ∀ x ∈ s.worker.inHand.toList ++ s.worker.delayed, x.rest.delay = false →
    Excused x.number s.log ∧ ∀ z ∈ s.worker.immediate, x.number < z.number
  asked : ∀ x ∈ s.worker.delayed, x.rest.delay = false → Asked x.number s.log

theorem orderly_start (r : Int) (period : Nat) : (start r period : Shift (Tracked π)).Orderly :=
  ⟨fun _ _ h => absurd (List.suffix_nil.mp h) (by simp), List.Pairwise.nil,
    fun _ h => absurd h List.not_mem_nil, fun _ h => absurd h List.not_mem_nil,
    fun _ h => absurd h List.not_mem_nil⟩

/-- Nothing changes by deeds that are no calls. -/
theorem Orderly.append {s : Shift (Tracked π)} (h : s.Orderly) {ds : Log (Tracked π)}
    (hds : ∀ a ∈ ds, a.turn ≠ .sent) : Orderly { s with log := ds ++ s.log } := by
  have hnone : ∀ a ∈ ds, ¬a.CallsImmediate := fun a ha hcalls => hds a ha hcalls.1
  refine ⟨h.calls.append hnone, h.ascending, fun a ha hcalls => ?_, fun x hx hdelay => ?_,
    fun x hx hdelay => (h.asked x hx hdelay).mono (List.suffix_append _ _)⟩
  · rcases List.mem_append.mp ha with ha | ha
    · exact absurd hcalls (hnone a ha)
    · exact h.called a ha hcalls
  · obtain ⟨hexcused, hlt⟩ := h.left x hx hdelay
    exact ⟨hexcused.append fun a ha hcalls => absurd hcalls (hnone a ha), hlt⟩

/-- The worker takes up the entry in hand. -/
theorem Orderly.hold {s : Shift (Tracked π)} (h : s.Orderly) {x : Tracked π}
    (hx : s.worker.inHand = some x) :
    Orderly { s with
      worker := s.worker.hold x, log := s.worker.takeUp s.now x :: s.log } := by
  have hleft := h.left
  rw [hx] at hleft
  have hself := hleft x List.mem_cons_self
  -- all that is left over has its excuse, so the call that is made now is in turn
  refine ⟨h.calls.cons fun hcalls => (hself hcalls.2).1, h.ascending, fun a ha hcalls => ?_,
    fun y hy hdelay => ?_, fun y hy hdelay => (h.asked y hy hdelay).mono (List.suffix_cons _ _)⟩
  · rcases List.mem_cons.mp ha with rfl | ha
    · exact (hself hcalls.2).2
    · exact h.called a ha hcalls
  · have hy' : y = x ∨ y ∈ s.worker.delayed := by
      rcases List.mem_append.mp hy with hy | hy
      · exact .inl (Worker.eq_of_inHand_hold (Option.mem_toList.mp hy))
      · exact .inr hy
    obtain ⟨hexcused, hlt⟩ := hleft y (by simpa using hy') hdelay
    have hcall : ∀ a ∈ [s.worker.takeUp s.now x], a.CallsImmediate →
        y.number < a.item.number → Asked y.number s.log := by
      intro a ha _ hnumber
      rw [List.mem_singleton.mp ha] at hnumber
      -- a later entry is called for: this one is in the delayed queue because it was asked to wait
      rcases hy' with rfl | hy'
      · exact absurd hnumber (Nat.lt_irrefl _)
      · exact h.asked y hy' hdelay
    exact ⟨hexcused.append hcall, hlt⟩

/-- The worker takes the first immediate entry. -/
theorem Orderly.wake {s : Shift (Tracked π)} (h : s.Orderly) {x : Tracked π}
    {rest : List (Tracked π)} (hq : s.worker.immediate = x :: rest) :
    Orderly { s with worker := { s.worker with immediate := rest, inHand := some x } } := by
  have hx : x ∈ s.worker.immediate := by rw [hq]; exact List.mem_cons_self
  have hrest : ∀ z ∈ rest, z ∈ s.worker.immediate := by
    intro z hz
    rw [hq]
    exact List.mem_cons_of_mem _ hz
  have hascending := h.ascending
  rw [hq, List.map_cons] at hascending
  -- the first of the queue is the least number in it
  refine ⟨h.calls, hascending.of_cons, fun a ha hcalls z hz => h.called a ha hcalls z (hrest z hz),
    fun y hy hdelay => ?_, h.asked⟩
  rcases List.mem_cons.mp hy with rfl | hy
  · -- all calls so far were for entries that came in before the first of the queue
    refine ⟨excused_of_forall_lt fun a ha hcalls => h.called a ha hcalls y hx, fun z hz => ?_⟩
    exact List.rel_of_pairwise_cons hascending (List.mem_map_of_mem hz)
  · obtain ⟨hexcused, hlt⟩ := h.left y (List.mem_append_right _ hy) hdelay
    exact ⟨hexcused, fun z hz => hlt z (hrest z hz)⟩

/-- The worker takes the first delayed entry, at a tick. -/
theorem Orderly.tick {s : Shift (Tracked π)} (h : s.Orderly) {x : Tracked π}
    {rest : List (Tracked π)} (hhand : s.worker.inHand = none)
    (hq : s.worker.delayed = x :: rest) :
    Orderly { s with worker := { s.worker with
      ticker := s.worker.ticker.taken s.now, delayed := rest, inHand := some x } } := by
  have hleft := h.left
  rw [hhand, hq] at hleft
  refine ⟨h.calls, h.ascending, h.called, hleft, fun y hy hdelay => ?_⟩
  exact h.asked y (by rw [hq]; exact List.mem_cons_of_mem _ hy) hdelay

/-- The entry in hand is answered. -/
theorem Orderly.onward {s : Shift (Tracked π)} (h : s.Orderly) {x : Tracked π}
    (hhand : s.worker.inHand = some x) (o : Outcome) :
    Orderly { s with worker := { s.worker with inHand := some (Deliverable.answer x o).1 } } := by
  have hleft := h.left
  rw [hhand] at hleft
  refine ⟨h.calls, h.ascending, h.called, fun y hy hdelay => ?_, h.asked⟩
  rcases List.mem_cons.mp hy with rfl | hy
  · exact hleft x List.mem_cons_self ((x.delay_answer o).symm.trans hdelay)
  · exact hleft y (List.mem_cons_of_mem _ hy) hdelay

/-- The entry in hand is asked to wait. -/
theorem Orderly.back {s : Shift (Tracked π)} (h : s.Orderly) {x : Tracked π}
    (hhand : s.worker.inHand = some x) {o : Outcome} (hwait : (Deliverable.answer x o).2 ≠ 0) :
    Orderly { s with
      worker := { s.worker with
        inHand := none
        delayed := (Deliverable.answer x o).1 :: s.worker.delayed
        ticker := s.worker.ticker.postponed s.now (Deliverable.answer x o).2 }
      log := ⟨.answered o, s.now, s.worker.recipient, x⟩ :: s.log } := by
  have hlogged : Orderly { s with
      log := [⟨.answered o, s.now, s.worker.recipient, x⟩] ++ s.log } :=
    h.append fun a ha => by
      rw [List.mem_singleton.mp ha]
      simp
  have hleft := hlogged.left
  rw [hhand] at hleft
  refine ⟨hlogged.calls, hlogged.ascending, hlogged.called, fun y hy hdelay => ?_,
    fun y hy hdelay => ?_⟩
  · rcases List.mem_cons.mp hy with rfl | hy
    · exact hleft x List.mem_cons_self ((x.delay_answer o).symm.trans hdelay)
    · exact hleft y (List.mem_cons_of_mem _ hy) hdelay
  · -- the entry is asked to wait just now
    rcases List.mem_cons.mp hy with rfl | hy
    · exact ⟨_, List.mem_cons_self, hwait, rfl⟩
    · exact hlogged.asked y hy hdelay

theorem Orderly.put {s : Shift (Tracked π)} (h : s.Orderly) (hsound : s.Sound)
    {entries : List (Entry π)} {w : Worker (Tracked π)}
    (hput : s.worker.put (bookAll Tracked.book s.count s.worker.recipient entries) = .ok w) :
    Orderly { s with worker := w } := by
  obtain ⟨hopen, rfl⟩ := Worker.put_eq_ok hput
  have hnew : ∀ z ∈ (bookAll Tracked.book s.count s.worker.recipient entries).filter
      fun x => !Deliverable.delay x, s.count ≤ z.number :=
    fun z hz => (mem_bookAll (List.mem_filter.mp hz).1).1
  -- what is new in the delayed queue is no immediate entry
  have hdelayed : ∀ x ∈ (bookAll Tracked.book s.count s.worker.recipient entries).filter
      Deliverable.delay, x.rest.delay ≠ false := by
    intro x hx
    rw [show x.rest.delay = true from (List.mem_filter.mp hx).2]
    simp
  refine ⟨h.calls, ?_, fun a ha hcalls z hz => ?_, fun x hx hdelay => ?_, fun x hx hdelay => ?_⟩
  · -- what is new has greater numbers than what is there
    rw [List.map_append]
    refine List.pairwise_append.mpr ⟨h.ascending, ?_, fun n hn k hk => ?_⟩
    · exact (pairwise_bookAll _ _ _).sublist (List.filter_sublist.map _)
    · obtain ⟨x, hx, rfl⟩ := List.mem_map.mp hn
      obtain ⟨z, hz, rfl⟩ := List.mem_map.mp hk
      have hlt := (hsound.kept x (by simp [Worker.kept_of_open hopen, hx])).number_lt
      exact Nat.lt_of_lt_of_le hlt (hnew z hz)
  · rcases List.mem_append.mp hz with hz | hz
    · exact h.called a ha hcalls z hz
    · exact Nat.lt_of_lt_of_le (hsound.log a ha).number_lt (hnew z hz)
  · -- an immediate entry out of the queue was there before
    have hx' : x ∈ s.worker.inHand.toList ++ s.worker.delayed := by
      rw [← List.append_assoc] at hx
      rcases List.mem_append.mp hx with hx | hx
      · exact hx
      · exact absurd hdelay (hdelayed x hx)
    obtain ⟨hexcused, hlt⟩ := h.left x hx' hdelay
    refine ⟨hexcused, fun z hz => ?_⟩
    -- what was left over before stays so, and is put before what is new
    rcases List.mem_append.mp hz with hz | hz
    · exact hlt z hz
    · have hkept : x ∈ s.worker.kept := by
        rw [Worker.kept_of_open hopen, ← List.append_assoc]
        exact List.mem_append_left _ hx'
      exact Nat.lt_of_lt_of_le (hsound.kept x hkept).number_lt (hnew z hz)
  · -- the delayed queue gets no immediate entry
    rcases List.mem_append.mp hx with hx | hx
    · exact h.asked x hx hdelay
    · exact absurd hdelay (hdelayed x hx)

theorem Orderly.move {s : Shift (Tracked π)} (h : s.Orderly) {m : Move}
    {w : Worker (Tracked π)} {ds : Log (Tracked π)}
    (hmoves : s.worker.Moves s.stop s.now m w ds) :
    Orderly { s with worker := w, log := ds ++ s.log } := by
  -- each move is one of the four steps above, or takes nothing up
  cases hmoves with
  | wake hopen hhand hq => exact (h.wake hq).hold rfl
  | tick hopen hhand hdue hq => exact (h.tick hhand hq).hold rfl
  | idle | close => exact ⟨h.calls, h.ascending, h.called, h.left, h.asked⟩
  | @onward x o hopen hhand hwait =>
    have hanswered : Orderly { s with
        log := [⟨.answered o, s.now, s.worker.recipient, x⟩] ++ s.log } :=
      h.append fun a ha => by
        rw [List.mem_singleton.mp ha]
        simp
    exact (hanswered.onward hhand o).hold rfl
  | back hopen hhand hwait => exact h.back hhand hwait
  | halt hopen hhand hstop =>
    -- what is dropped at the end is not called for
    have hdropped : Orderly { s with
        log := ((s.worker.delayed ++ s.worker.immediate).map
          fun x => ⟨.dropped, s.now, s.worker.recipient, x⟩) ++ s.log } :=
      h.append fun a ha => by
        obtain ⟨x, -, rfl⟩ := List.mem_map.mp ha
        simp
    exact ⟨hdropped.calls, hdropped.ascending, hdropped.called, hdropped.left, hdropped.asked⟩

theorem Orderly.step {s s' : Shift (Tracked π)} (h : s.Orderly) (hsound : s.Sound)
    (hstep : Step Tracked.book s s') : s'.Orderly := by
  cases hstep with
  | @put entries w hput =>
    have hlogged : Orderly { s with
        worker := w
        log := ((bookAll Tracked.book s.count s.worker.recipient entries).map
          fun x => ⟨.accepted, s.now, s.worker.recipient, x⟩).reverse ++ s.log } :=
      (h.put hsound hput).append fun a ha => by
        obtain ⟨x, -, rfl⟩ := List.mem_map.mp (List.mem_reverse.mp ha)
        simp
    exact ⟨hlogged.calls, hlogged.ascending, hlogged.called, hlogged.left, hlogged.asked⟩
  | move hmay hmoves =>
    have hmoved := h.move hmoves
    exact ⟨hmoved.calls, hmoved.ascending, hmoved.called, hmoved.left, hmoved.asked⟩
  | quiet polling stop ms hpoll =>
    exact ⟨h.calls, h.ascending, h.called, h.left, h.asked⟩

end Shift

/-! ### What is let pass -/

/-- An immediate entry with something to deliver comes in. -/
def Deed.BringsImmediate (a : Deed (Tracked π)) : Prop :=
  a.turn = .accepted ∧ a.item.rest.delay = false ∧ a.item.rest.units ≠ []

/-- The entry with number `n` has been called for. -/
def Called (n : Nat) (log : Log (Tracked π)) : Prop := ∃ a ∈ log, a.turn = .sent ∧ a.item.number = n

/-- Of the immediate entries that had come in when the entry with number `n` was asked to wait, all
have been called for. -/
def Cleared (n : Nat) (log : Log (Tracked π)) : Prop :=
  ∀ c older, c :: older <:+ log → c.wait ≠ 0 → c.item.number = n →
    ∀ a ∈ older, a.BringsImmediate → Called a.item.number log

section

variable {n : Nat} {log ds : Log (Tracked π)}

theorem Called.append (h : Called n log) (ds : Log (Tracked π)) : Called n (ds ++ log) := by
  obtain ⟨a, ha, ht, hnumber⟩ := h
  exact ⟨a, List.mem_append_right _ ha, ht, hnumber⟩

theorem Cleared.append (h : Cleared n log) (hds : ∀ a ∈ ds, a.wait = 0) :
    Cleared n (ds ++ log) := by
  intro c older hsuffix hwait hnumber a ha hbrings
  rcases suffix_append_cases hsuffix with ⟨hc, -⟩ | hsuffix
  · exact absurd (hds c hc) hwait
  · exact (h c older hsuffix hwait hnumber a ha hbrings).append ds

theorem cleared_of_not_asked (h : ¬Asked n log) : Cleared n log := by
  intro c older hsuffix hwait hnumber
  exact absurd ⟨c, hsuffix.subset List.mem_cons_self, hwait, hnumber⟩ h

theorem not_asked_append (h : ¬Asked n log) (hds : ∀ a ∈ ds, a.wait = 0) :
    ¬Asked n (ds ++ log) := by
  rintro ⟨a, ha, hwait, hnumber⟩
  rcases List.mem_append.mp ha with ha | ha
  · exact hwait (hds a ha)
  · exact h ⟨a, ha, hwait, hnumber⟩

end

namespace Shift

/-- Before an entry is tried again, immediate entries are let pass.

* `fresh`: entries in the immediate queue have never been asked to wait.
* `brought`: an immediate entry leaves its queue only to be called for.
* `polling`: what is in the immediate queue while the worker polls has come in since the last
  request. -/
structure Yielding (s : Shift (Tracked π)) : Prop where
  calls : ∀ a older, a :: older <:+ s.log → a.turn = .sent → Cleared a.item.number older
  inHand : ∀ x, s.worker.inHand = some x → Cleared x.number s.log
  fresh : ∀ z ∈ s.worker.immediate, ¬Asked z.number s.log
  brought : ∀ a ∈ s.log, a.BringsImmediate →
    a.item ∈ s.worker.immediate ∨ Called a.item.number s.log
  polling : s.polling = true → ∀ z ∈ s.worker.immediate, ∀ c older, c :: older <:+ s.log →
    c.wait ≠ 0 → ∀ a ∈ older, a.item.number ≠ z.number

theorem yielding_start (r : Int) (period : Nat) : (start r period : Shift (Tracked π)).Yielding :=
  ⟨fun _ _ h => absurd (List.suffix_nil.mp h) (by simp), fun _ h => (nomatch h),
    fun _ h => absurd h List.not_mem_nil, fun _ h => absurd h List.not_mem_nil,
    fun h => (nomatch h)⟩

/-- Nothing changes by deeds that are neither calls nor requests, and bring no entries. -/
theorem Yielding.append {s : Shift (Tracked π)} (h : s.Yielding) {ds : Log (Tracked π)}
    (hds : ∀ a ∈ ds, a.turn ≠ .sent ∧ a.turn ≠ .accepted ∧ a.wait = 0) :
    Yielding { s with log := ds ++ s.log } := by
  have hwait : ∀ a ∈ ds, a.wait = 0 := fun a ha => (hds a ha).2.2
  refine ⟨fun a older hsuffix ht => ?_, fun x hx => (h.inHand x hx).append hwait,
    fun z hz => not_asked_append (h.fresh z hz) hwait, fun a ha hbrings => ?_,
    fun hpoll z hz c older hsuffix hc => ?_⟩
  · rcases suffix_append_cases hsuffix with ⟨ha, -⟩ | hsuffix
    · exact absurd ht (hds a ha).1
    · exact h.calls a older hsuffix ht
  · rcases List.mem_append.mp ha with ha | ha
    · exact absurd hbrings.1 (hds a ha).2.1
    · exact (h.brought a ha hbrings).imp_right fun hcalled => hcalled.append ds
  · rcases suffix_append_cases hsuffix with ⟨hc', -⟩ | hsuffix
    · exact absurd (hwait c hc') hc
    · exact h.polling hpoll z hz c older hsuffix hc

/-- The worker takes an entry up, perhaps out of the immediate queue. -/
theorem Yielding.takeUp {s : Shift (Tracked π)} (h : s.Yielding) {x : Tracked π}
    (hx : Cleared x.number s.log) {w : Worker (Tracked π)}
    (himm : ∀ z ∈ w.immediate, z ∈ s.worker.immediate)
    (hout : ∀ z ∈ s.worker.immediate, z = x ∨ z ∈ w.immediate) :
    Yielding { s with
      worker := w.hold x, polling := false, log := s.worker.takeUp s.now x :: s.log } := by
  have hwait : ∀ a ∈ [s.worker.takeUp s.now x], a.wait = 0 := by
    intro a ha
    rw [List.mem_singleton.mp ha]
    exact wait_takeUp _ _ _
  refine ⟨fun a older hsuffix ht => ?_, fun y hy => ?_,
    fun z hz => not_asked_append (h.fresh z (himm z hz)) hwait, fun a ha hbrings => ?_,
    fun hpoll => (nomatch hpoll)⟩
  · -- the call for the entry that is taken up, and the older calls
    rcases List.suffix_cons_iff.mp hsuffix with heq | hsuffix
    · obtain ⟨rfl, rfl⟩ := List.cons.inj heq
      exact hx
    · exact h.calls a older hsuffix ht
  · obtain rfl := Worker.eq_of_inHand_hold hy
    exact hx.append hwait
  · rcases List.mem_cons.mp ha with rfl | ha
    · -- taking up brings nothing in
      have hturn := hbrings.1
      cases hdone : Deliverable.isDone x <;> simp [Worker.takeUp, hdone] at hturn
    · rcases h.brought a ha hbrings with hqueued | hcalled
      · -- an entry that came in has left the queue for the worker's hand, or it is still there
        rcases hout _ hqueued with heq | hqueued
        · -- the entry leaves the queue now
          refine .inr ⟨_, List.mem_cons_self, ?_, by rw [heq]; rfl⟩
          have hunits := hbrings.2.2
          rw [heq] at hunits
          simp [Worker.takeUp, hunits]
        · exact .inl hqueued
      · exact .inr (hcalled.append [_])

/-- The entry in hand is asked to wait. -/
theorem Yielding.back {s : Shift (Tracked π)} (h : s.Yielding) (hsound : s.Sound) {x : Tracked π}
    (hopen : s.worker.closed = false) (hhand : s.worker.inHand = some x) (o : Outcome) :
    Yielding { s with
      worker := { s.worker with
        inHand := none
        delayed := (Deliverable.answer x o).1 :: s.worker.delayed
        ticker := s.worker.ticker.postponed s.now (Deliverable.answer x o).2 }
      polling := false
      log := ⟨.answered o, s.now, s.worker.recipient, x⟩ :: s.log } := by
  refine ⟨fun a older hsuffix ht => ?_, fun y hy => (nomatch hy), ?_, fun a ha hbrings => ?_,
    fun hpoll => (nomatch hpoll)⟩
  · -- the newest deed is an answer and calls for nothing
    rcases List.suffix_cons_iff.mp hsuffix with heq | hsuffix
    · obtain ⟨rfl, -⟩ := List.cons.inj heq
      cases ht
    · exact h.calls a older hsuffix ht
  · -- the entry that is asked is not in the queue
    rintro z hz ⟨a, ha, hasked, hnumber⟩
    rcases List.mem_cons.mp ha with rfl | ha
    · exact hsound.number_ne_of_inHand hopen hhand (List.mem_append_right _ hz) hnumber.symm
    · exact h.fresh z hz ⟨a, ha, hasked, hnumber⟩
  · rcases List.mem_cons.mp ha with rfl | ha
    · exact absurd hbrings.1 (by simp)
    · exact (h.brought a ha hbrings).imp_right fun hcalled => hcalled.append [_]

theorem Yielding.move {s : Shift (Tracked π)} (h : s.Yielding) (hsound : s.Sound) {m : Move}
    {w : Worker (Tracked π)} {ds : Log (Tracked π)} (hmay : s.may m = true)
    (hmoves : s.worker.Moves s.stop s.now m w ds) :
    Yielding { s with worker := w, polling := false, log := ds ++ s.log } := by
  cases hmoves with
  | @wake x rest hopen hhand hq =>
    -- what is taken out of the queue has never been asked to wait
    have hx : x ∈ s.worker.immediate := by rw [hq]; exact List.mem_cons_self
    refine h.takeUp (cleared_of_not_asked (h.fresh x hx)) (fun z hz => ?_) fun z hz => ?_
    · rw [hq]
      exact List.mem_cons_of_mem _ hz
    · rw [hq] at hz
      exact List.mem_cons.mp hz
  | @tick x rest hopen hhand hdue hq =>
    refine h.takeUp (fun c older hsuffix hwait _ a ha hbrings => ?_) (fun z hz => hz)
      fun z hz => .inr hz
    -- the worker polls, so nothing that came in before the request is in the immediate queue
    have hmem : a ∈ s.log := hsuffix.subset (List.mem_cons_of_mem _ ha)
    rcases h.brought a hmem hbrings with hqueued | hcalled
    · exact absurd rfl (h.polling hmay _ hqueued c older hsuffix hwait a ha)
    · exact hcalled
  | idle | close =>
    exact ⟨h.calls, h.inHand, h.fresh, h.brought, fun hpoll => (nomatch hpoll)⟩
  | @onward x o hopen hhand hwait =>
    -- the answer asks for no wait, so it changes nothing for the calls
    have hanswered : Yielding { s with
        log := [⟨.answered o, s.now, s.worker.recipient, x⟩] ++ s.log } :=
      h.append fun a ha => by
        rw [List.mem_singleton.mp ha]
        exact ⟨by simp, by simp, hwait⟩
    exact hanswered.takeUp (x := (Deliverable.answer x o).1) (hanswered.inHand x hhand)
      (fun z hz => hz) fun z hz => .inr hz
  | @back x o hopen hhand hwait => exact h.back hsound hopen hhand o
  | halt hopen hhand hstop =>
    have hdropped : Yielding { s with
        log := ((s.worker.delayed ++ s.worker.immediate).map
          fun x => ⟨.dropped, s.now, s.worker.recipient, x⟩) ++ s.log } :=
      h.append fun a ha => by
        obtain ⟨x, -, rfl⟩ := List.mem_map.mp ha
        exact ⟨by simp, by simp, rfl⟩
    exact ⟨hdropped.calls, hdropped.inHand, hdropped.fresh, hdropped.brought,
      fun hpoll => (nomatch hpoll)⟩

theorem Yielding.put {s : Shift (Tracked π)} (h : s.Yielding) (hsound : s.Sound)
    {entries : List (Entry π)} {w : Worker (Tracked π)}
    (hput : s.worker.put (bookAll Tracked.book s.count s.worker.recipient entries) = .ok w) :
    Yielding { s with
      worker := w
      count := s.count + entries.length
      log := ((bookAll Tracked.book s.count s.worker.recipient entries).map
        fun x => ⟨.accepted, s.now, s.worker.recipient, x⟩).reverse ++ s.log } := by
  obtain ⟨-, rfl⟩ := Worker.put_eq_ok hput
  -- what is new has numbers that no deed in the log has
  have hnumber : ∀ z ∈ (bookAll Tracked.book s.count s.worker.recipient entries).filter
      (fun x => !Deliverable.delay x), ∀ a ∈ s.log, a.item.number ≠ z.number := by
    intro z hz a ha
    have hlt := (hsound.log a ha).number_lt
    have hle := (mem_bookAll (List.mem_filter.mp hz).1).1
    omega
  generalize bookAll Tracked.book s.count s.worker.recipient entries = xs at hnumber
  have hds : ∀ a ∈ (xs.map fun x =>
      (⟨.accepted, s.now, s.worker.recipient, x⟩ : Deed (Tracked π))).reverse,
      a.turn = .accepted ∧ a.wait = 0 ∧ a.item ∈ xs := by
    intro a ha
    obtain ⟨x, hx, rfl⟩ := List.mem_map.mp (List.mem_reverse.mp ha)
    exact ⟨rfl, rfl, hx⟩
  have hwait := fun a ha => (hds a ha).2.1
  refine ⟨fun a older hsuffix ht => ?_, fun x hx => (h.inHand x hx).append hwait,
    fun z hz => not_asked_append ?_ hwait, fun a ha hbrings => ?_,
    fun hpoll z hz c older hsuffix hc => ?_⟩
  · rcases suffix_append_cases hsuffix with ⟨ha, -⟩ | hsuffix
    · rw [(hds a ha).1] at ht
      cases ht
    · exact h.calls a older hsuffix ht
  · rcases List.mem_append.mp hz with hz | hz
    · exact h.fresh z hz
    · rintro ⟨a, ha, -, hsame⟩
      exact hnumber z hz a ha hsame
  · rcases List.mem_append.mp ha with ha | ha
    · refine .inl (List.mem_append_right _ (List.mem_filter.mpr ⟨(hds a ha).2.2, ?_⟩))
      simpa using hbrings.2.1
    · rcases h.brought a ha hbrings with hqueued | hcalled
      · exact .inl (List.mem_append_left _ hqueued)
      · exact .inr (hcalled.append _)
  · -- there is no request to wait among the new deeds
    rcases suffix_append_cases hsuffix with ⟨hc', -⟩ | hsuffix
    · exact absurd (hwait c hc') hc
    · rcases List.mem_append.mp hz with hz | hz
      · exact h.polling hpoll z hz c older hsuffix hc
      · exact fun a ha => hnumber z hz a (hsuffix.subset (List.mem_cons_of_mem _ ha))

theorem Yielding.step {s s' : Shift (Tracked π)} (h : s.Yielding) (hsound : s.Sound)
    (hstep : Step Tracked.book s s') : s'.Yielding := by
  cases hstep with
  | put entries hput => exact h.put hsound hput
  | move hmay hmoves => exact h.move hsound hmay hmoves
  | quiet polling stop ms hpoll =>
    -- the worker begins to poll with nothing in the immediate queue
    refine ⟨h.calls, h.inHand, h.fresh, h.brought, fun hp z hz => ?_⟩
    rcases hpoll hp with hpolling | hnone
    · exact h.polling hpolling z hz
    · rw [hnone] at hz
      exact absurd hz List.not_mem_nil

theorem orderly_run (r : Int) (period : Nat) (events : List (Occasion π)) :
    ((start r period).run Tracked.book events).Orderly ∧
    ((start r period).run Tracked.book events).Yielding := by
  have key : ∀ s : Shift (Tracked π), s.Sound ∧ s.Orderly ∧ s.Yielding →
      ∀ s', Step Tracked.book s s' → s'.Sound ∧ s'.Orderly ∧ s'.Yielding := by
    rintro s ⟨hsound, horderly, hyielding⟩ s' hstep
    exact ⟨hsound.step hstep, horderly.step hsound hstep, hyielding.step hsound hstep⟩
  exact (run_induction Tracked.book r period
    ⟨sound_start r period, orderly_start r period, yielding_start r period⟩
    (fun s s' h => key s h s') events).2

/-- **Immediate entries go out first in, first out, up to the first request to wait.**  In every
run, if a later immediate entry is called for before a call for an earlier one, the earlier one was
asked to wait before that.  And then it always is so: whenever an entry that is asked to wait is
tried again, all immediate entries that had come in have been called for, those that came in later
than it among them.  There are such runs. -/
theorem immediate_in_order_unless_asked (r : Int) (period : Nat) :
    (∀ (events : List (Occasion π)) (later between before : Log (Tracked π))
      (a b : Deed (Tracked π)),
      ((start r period).run Tracked.book events).log = later ++ b :: (between ++ a :: before) →
      a.turn = .sent → b.turn = .sent → a.item.origin.delay = false →
      b.item.origin.delay = false → b.item.number < a.item.number →
      ∃ c ∈ before, ∃ wait, c.Delays wait ∧ c.item.number = b.item.number) ∧
    (∀ (events : List (Occasion π)) (later between before : Log (Tracked π))
      (a b c : Deed (Tracked π)) (wait : Nat),
      ((start r period).run Tracked.book events).log = later ++ b :: (between ++ c :: before) →
      b.turn = .sent → c.Delays wait → c.item.number = b.item.number →
      a ∈ before → a.turn = .accepted → a.item.rest.delay = false → a.item.rest.units ≠ [] →
      ∃ d ∈ between ++ c :: before, d.turn = .sent ∧ d.item.number = a.item.number) ∧
    ∀ (u v : Unit π) (wait s q : Nat), u.retryCount + 1 < u.maxRetry →
      v.retryCount + 1 < v.maxRetry → 0 < wait → 0 < q →
      ∃ (between before : Log (Tracked π)) (a b : Deed (Tracked π)),
        ((start r period).run Tracked.book (overtaking u v period wait s q)).log =
          b :: (between ++ a :: before) ∧
        a.turn = .sent ∧ b.turn = .sent ∧ a.item.origin.delay = false ∧
        b.item.origin.delay = false ∧ b.item.number < a.item.number := by
  refine ⟨fun events later between before a b hlog ha hb hadelay hbdelay hlt => ?_,
    fun events later between before a b c wait hlog hb hc hnumber ha ht hdelay hunits => ?_,
    fun u v wait s q hu hv hwait hq => ?_⟩
  · -- the deed that asked is found in the part of the log before the earlier call
    have hsound := sound_run r period events
    have hcalls := (orderly_run r period events).1.calls
    have hclass : ∀ d ∈ ((start r period).run Tracked.book events).log,
        d.item.rest.delay = d.item.origin.delay := fun d hd => (hsound.log d hd).delay
    rw [hlog] at hcalls hclass
    have hexcused := hcalls b (between ++ a :: before) (List.suffix_append _ _)
      ⟨hb, (hclass b (by simp)).trans hbdelay⟩
    obtain ⟨c, hc, hwait, hnumber⟩ := hexcused a before (List.suffix_append _ _)
      ⟨ha, (hclass a (by simp)).trans hadelay⟩ hlt
    exact ⟨c, hc, c.wait, Deed.delays_wait hwait, hnumber⟩
  · -- the entry has been cleared when it is tried again
    have hcalls := (orderly_run r period events).2.calls
    rw [hlog] at hcalls
    have hcleared := hcalls b (between ++ c :: before) (List.suffix_append _ _) hb
    refine hcleared c before (List.suffix_append _ _) ?_ hnumber a ha ⟨ht, hdelay, hunits⟩
    rw [hc.wait_eq]
    exact Nat.ne_of_gt hc.pos
  · -- the run in which the later entry overtakes is computed for all parameters
    let x := Tracked.book 0 r ⟨[u], false⟩
    let y := Tracked.book 1 r ⟨[v], false⟩
    let y' := (y.answer (.rateLimited q)).1
    exact ⟨[⟨.finished, s + q, r, (y'.answer .delivered).1⟩,
        ⟨.answered .delivered, s + q, r, y'⟩],
      [⟨.answered (.rateLimited q), s, r, y⟩, ⟨.sent, s, r, y⟩, ⟨.accepted, s, r, y⟩,
        ⟨.answered (.rateLimited wait), 0, r, x⟩, ⟨.sent, 0, r, x⟩, ⟨.accepted, 0, r, x⟩],
      ⟨.sent, s + q, r, y'⟩,
      ⟨.sent, s + q + max Time.Ticker.leastPeriod period, r, (x.answer (.rateLimited wait)).1⟩,
      run_overtaking r period hu hv hwait hq, rfl, rfl, rfl, rfl, Nat.one_pos⟩

end Shift

end Courier.Delivery

import Courier.Delivery.Line.Basic

/-!
A worker comes to rest.

At every instant only so much can happen: every answer finishes a unit or moves the next tick away,
and a tick is taken once.  With every step the worker comes nearer to rest (`Line.measure_step?`),
and `Line.settle` is the worker when nothing is left to do.
-/

namespace Courier.Delivery.Line

variable {σ π : Type}

/-! ### What there is to do -/

/-- How much there is to do for an entry that is not yet in hand. -/
def weight (e : Entry π) : Nat := 2 * e.units.length + 3

/-- How much there is to do for entries that are not yet in hand. -/
def load : List (Entry π) → Nat
  | [] => 0
  | e :: es => weight e + load es

/-- How much there is to do without a further tick. -/
def work (l : Line σ π) : Nat :=
  load l.worker.immediate +
  (match l.worker.inHand with
    | some e => 2 * e.units.length + (if l.call.isNone then 2 else 1)
    | none => 0) +
  if l.worker.closed then 0 else 1

/-- How many ticks may still be taken at an instant. -/
def ticks (now : Nat) (l : Line σ π) : Nat :=
  if l.worker.closed then 0 else now + 1 - l.worker.ticker.next

theorem length_answer_lt {e : Entry π} {u : Unit π} {us : List (Unit π)} {o : Outcome}
    (he : e.units = u :: us) (h : (e.answer o).2 = 0) :
    (e.answer o).1.units.length < e.units.length := by
  unfold Entry.answer at h ⊢
  rw [he] at h ⊢
  cases o with
  | delivered => simp
  | failed reason => simp
  | rateLimited wait =>
    dsimp only at h ⊢
    split at h
    · simp only at h
      omega
    · rename_i hw
      rw [if_neg hw]
      simp

theorem work_hold (l : Line σ π) (w : Worker (Entry π)) (e : Entry π) :
    work { l with worker := w.hold e, call := none } ≤
      load w.immediate + (2 * e.units.length + if e.units.isEmpty then 0 else 2) +
        if w.closed then 0 else 1 := by
  by_cases h : e.units.isEmpty <;> simp [work, Worker.hold, h]

/-- Taking an answer, the worker comes nearer to rest. -/
theorem measure_answer (l : Line σ π) {e : Entry π} {u : Unit π} {us : List (Unit π)} {c : Call}
    (now : Nat) (attempts : List (Attempt π)) (hw : l.worker.inHand = some e)
    (he : e.units = u :: us) (hc : l.call = some c) :
    let l' : Line σ π :=
      { l with worker := l.worker.answer now c.outcome, call := none, attempts }
    l'.ticks now ≤ l.ticks now ∧ l'.work < l.work := by
  intro l'
  have hwork : l.work = load l.worker.immediate + (2 * e.units.length + 1) +
      if l.worker.closed then 0 else 1 := by
    simp [work, hw, hc]
  by_cases h0 : (e.answer c.outcome).2 = 0
  · have hl : l'.worker = l.worker.hold (e.answer c.outcome).1 := by
      simp [l', Worker.answer, hw, h0]
    have hlt := length_answer_lt he h0
    refine ⟨Nat.le_of_eq (by simp [ticks, hl, Worker.hold]), ?_⟩
    have hle := work_hold { l with attempts } l.worker (e.answer c.outcome).1
    have : l' = { l with
        worker := l.worker.hold (e.answer c.outcome).1, call := none, attempts } := by
      simp [l', Worker.answer, hw, h0]
    rw [this]
    refine Nat.lt_of_le_of_lt hle ?_
    rw [hwork]
    split <;> omega
  · have hl : l'.worker = { l.worker with
        inHand := none, delayed := (e.answer c.outcome).1 :: l.worker.delayed,
        ticker := l.worker.ticker.postponed now (e.answer c.outcome).2 } := by
      simp [l', Worker.answer, hw, h0]
    constructor
    · simp only [ticks, hl, Time.Ticker.postponed]
      split <;> omega
    · rw [hwork]
      simp only [work, hl]
      split <;> omega

/-- With every step the worker comes nearer to rest. -/
theorem measure_step? [Sender σ π] {stop : Bool} {now : Nat} {l l' : Line σ π}
    (h : l.step? stop now = some l') :
    Prod.Lex (· < ·) (· < ·) (l'.ticks now, l'.work) (l.ticks now, l.work) := by
  have lex {a b c d : Nat} (hab : a ≤ b) (hcd : c < d) :
      Prod.Lex (· < ·) (· < ·) (a, c) (b, d) := by
    rcases Nat.lt_or_eq_of_le hab with hab | rfl
    · exact .left _ _ hab
    · exact .right _ hcd
  simp only [step?] at h
  split at h
  · rename_i e hw
    unfold proceed? at h
    split at h
    · rename_i u us c he hc
      split at h <;> simp only [Option.some.injEq, reduceCtorEq] at h
      subst h
      have := measure_answer l now (⟨now, l.worker.recipient, u.payload, c.outcome⟩ :: l.attempts)
        hw he hc
      exact lex this.1 this.2
    · rename_i hc
      simp only [Option.some.injEq] at h
      subst h
      exact lex (Nat.le_refl _) (by simp [work, hw, hc])
    · simp only [Option.some.injEq] at h
      subst h
      refine lex (Nat.le_refl _) ?_
      cases hc : l.call <;> simp [work, hw, hc]
  · rename_i hw
    split at h
    · simp at h
    · rename_i hopen
      split at h
      · rename_i himm
        simp only [Option.some.injEq] at h
        subst h
        obtain ⟨e, rest, hi⟩ : ∃ e rest, l.worker.immediate = e :: rest := by
          cases hi : l.worker.immediate with
          | nil => simp [hi] at himm
          | cons e rest => exact ⟨e, rest, rfl⟩
        refine lex (Nat.le_of_eq (by simp [ticks, Worker.takeImmediate, hi, Worker.hold])) ?_
        have hle := work_hold l { l.worker with immediate := rest } e
        simp only [Worker.takeImmediate, hi]
        refine Nat.lt_of_le_of_lt hle ?_
        simp only [work, hw, hi, load, weight]
        split <;> omega
      · split at h
        · simp only [Option.some.injEq] at h
          subst h
          refine lex (by simp [ticks, Worker.halt]) ?_
          simp [work, Worker.halt, hw, hopen]
        · split at h <;> simp only [Option.some.injEq, reduceCtorEq] at h
          rename_i hdue
          subst h
          refine .left _ _ ?_
          have hlt := l.worker.ticker.next_lt_next_taken now
          simp only [Time.Ticker.isDue, decide_eq_true_eq] at hdue
          simp only [ticks, Worker.tick, Worker.hold]
          rcases hd : l.worker.delayed with - | ⟨e, rest⟩
          · rcases hi : l.worker.immediate with - | ⟨e, rest⟩ <;> simp [hopen] <;> omega
          · simp only [hopen]
            simp
            omega

/-! ### At rest -/

/-- The line at rest: everything that the worker does at an instant is done. -/
def settle [Sender σ π] (stop : Bool) (now : Nat) (l : Line σ π) : Line σ π :=
  match _h : l.step? stop now with
  | none => l
  | some l' => settle stop now l'
termination_by (l.ticks now, l.work)
decreasing_by exact measure_step? (by assumption)

/-- When the worker acts again by itself: when its call is over, or at its next tick. -/
def next? (l : Line σ π) : Option Nat :=
  match l.worker.inHand, l.call with
  | some _, some c => some c.due
  | _, _ => if l.worker.closed then none else some l.worker.ticker.next

end Courier.Delivery.Line

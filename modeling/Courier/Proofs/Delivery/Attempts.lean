import Courier.Delivery.Unit
import Courier.Number.Width

/-!
The calls for one entry.

An entry is processed again as long as the service asks to wait (`Entry.processAgain`).  Two units
with the same payload cannot be told apart by a sender, so the payloads are numbered and the sender
keeps a record of its calls (`recording`); the numbers do not matter for what happens
(`Entry.processAgain_bare`).

A record is `Orderly` if the units are tried one after the other, none of them after it has been
delivered or more often than it may be, and nothing is tried after a final answer.

Design.  Rounds and the calls of a round are two recursions, so there are two invariants.
`Standing` is what holds within a round: the units that have been delivered are behind, and of the
first of the others it is known how often it has been tried.  It is kept by an answer that delivers
(`Standing.deliver`) and by one that asks to wait (`Standing.wait`); with any other answer the calls
are over (`Standing.ended`).  `Left` is what holds between rounds: the calls have come to an end, or
they stand somewhere with that many spare attempts.  A round leads from the one to the other
(`processUnits_left`), and every further round spends one of the spare attempts
(`processAgain_left`).

Main statement: whatever the service answers, the record is orderly after every round, no counter
overflows, and there are at most as many further rounds as there are spare attempts
(`Entry.attempts_accounted`).
-/

namespace Courier.Delivery

variable {π σ : Type}

/-! ### Records of calls -/

/-- A call that has been made: the place of its unit in the entry, and the answer. -/
structure Trial where
  place : Nat
  outcome : Outcome
deriving DecidableEq

/-- A sender of numbered payloads that keeps a record of its calls, oldest first. -/
def recording (send : σ → π → Outcome × σ) (s : σ × List Trial) (p : Nat × π) :
    Outcome × σ × List Trial :=
  ((send s.1 p.2).1, (send s.1 p.2).2, s.2 ++ [⟨p.1, (send s.1 p.2).1⟩])

/-- How often a unit has been tried. -/
def tries (place : Nat) (record : List Trial) : Nat := record.countP fun a => a.place = place

/-- Whether the calls end with this one: it has failed for good, or it was the last one that its
unit may have. -/
def Trial.Final (specs : List (π × UInt32)) (earlier : List Trial) (a : Trial) : Prop :=
  match a.outcome with
  | .delivered => False
  | .failed _ => True
  | .rateLimited wait =>
    wait = 0 ∨ ∃ p, specs[a.place]? = some p ∧ p.2.toNat ≤ tries a.place earlier + 1

/-- What holds of the calls for units with these payloads and budgets.

* `inOrder`: a unit is tried only after the one before it has been delivered.
* `once`: a unit that has been delivered is not tried again.
* `budget`: no unit is tried more often than it may be, but every one may be tried once.
* `final`: nothing is tried after a final answer. -/
structure Orderly (specs : List (π × UInt32)) (record : List Trial) : Prop where
  inOrder : ∀ earlier i o later, record = earlier ++ ⟨i + 1, o⟩ :: later →
    ⟨i, .delivered⟩ ∈ earlier
  once : ∀ earlier i later, record = earlier ++ ⟨i, .delivered⟩ :: later →
    ∀ a ∈ later, a.place ≠ i
  budget : ∀ i p, specs[i]? = some p → tries i record ≤ max 1 p.2.toNat
  final : ∀ earlier a later, record = earlier ++ a :: later → a.Final specs earlier → later = []

/-- The calls have come to an end: every unit has been delivered, or the last answer was final and
no unit behind the one it was for has been tried. -/
def Ended (specs : List (π × UInt32)) (record : List Trial) : Prop :=
  (∀ i < specs.length, ⟨i, .delivered⟩ ∈ record) ∨
    ∃ earlier a, record = earlier ++ [a] ∧ a.Final specs earlier ∧ ∀ b ∈ record, b.place ≤ a.place

theorem tries_concat (place : Nat) (record : List Trial) (a : Trial) :
    tries place (record ++ [a]) = tries place record + if a.place = place then 1 else 0 := by
  simp [tries, List.countP_append, List.countP_singleton]

/-- A list that ends with `y`, cut before some `x`: at `y` itself, or further up. -/
theorem cut_concat {α : Type} {l earlier later : List α} {x y : α}
    (h : l ++ [y] = earlier ++ x :: later) :
    (later = [] ∧ l = earlier ∧ y = x) ∨
      ∃ later', later = later' ++ [y] ∧ l = earlier ++ x :: later' := by
  rcases List.eq_nil_or_concat later with rfl | ⟨later', z, rfl⟩
  · obtain ⟨hl, hy⟩ := List.append_inj' h rfl
    exact .inl ⟨rfl, hl, List.singleton_inj.mp hy⟩
  · have hz : l ++ [y] = (earlier ++ x :: later') ++ [z] := by simpa using h
    obtain ⟨hl, hy⟩ := List.append_inj' hz rfl
    obtain rfl := List.singleton_inj.mp hy
    exact .inr ⟨later', by simp, hl⟩

/-- A call for the unit at `k` keeps the record orderly, if all units before it have been delivered
and none of the answers so far is final. -/
theorem Orderly.concat {specs : List (π × UInt32)} {record : List Trial}
    (h : Orderly specs record) {k : Nat} (hbefore : ∀ i < k, ⟨i, .delivered⟩ ∈ record)
    (hpending : ⟨k, .delivered⟩ ∉ record)
    (hleft : ∀ p, specs[k]? = some p → tries k record + 1 ≤ max 1 p.2.toNat)
    (hopen : ∀ earlier a later, record = earlier ++ a :: later → ¬ a.Final specs earlier)
    (o : Outcome) : Orderly specs (record ++ [⟨k, o⟩]) where
  -- the new call is the last of the record, or the record is cut further in front
  inOrder := by
    intro earlier i o' later heq
    rcases cut_concat heq with ⟨-, rfl, hlast⟩ | ⟨later', -, hcut⟩
    · obtain rfl : k = i + 1 := congrArg Trial.place hlast
      exact hbefore i (Nat.lt_succ_self i)
    · exact h.inOrder earlier i o' later' hcut
  once := by
    intro earlier i later heq
    rcases cut_concat heq with ⟨rfl, -, -⟩ | ⟨later', rfl, hcut⟩
    · intro a ha
      cases ha
    · intro a ha
      rcases List.mem_append.mp ha with ha | ha
      · exact h.once earlier i later' hcut a ha
      · obtain rfl := List.mem_singleton.mp ha
        -- a unit that has been delivered is not the one under way
        rintro rfl
        apply hpending
        rw [hcut]
        exact List.mem_append_right _ List.mem_cons_self
  budget := by
    intro i p hp
    rw [tries_concat]
    by_cases hi : k = i
    · subst hi
      simpa using hleft p hp
    · simpa [hi] using h.budget i p hp
  final := by
    intro earlier a later heq hfinal
    rcases cut_concat heq with ⟨rfl, -, -⟩ | ⟨later', -, hcut⟩
    · rfl
    · exact absurd hfinal (hopen earlier a later' hcut)

/-! ### Units under way -/

/-- New units for payloads with their budgets, numbered from `place` on. -/
def Unit.numbered (place : Nat) : List (π × UInt32) → List (Unit (Nat × π))
  | [] => []
  | (p, budget) :: rest => Unit.new (place, p) budget.toNat :: numbered (place + 1) rest

/-- New units, of which the first one has been tried some times already. -/
def Unit.resumed (place tried : Nat) : List (π × UInt32) → List (Unit (Nat × π))
  | [] => []
  | (p, budget) :: rest => ⟨(place, p), tried, budget.toNat⟩ :: Unit.numbered (place + 1) rest

theorem Unit.resumed_zero (place : Nat) (specs : List (π × UInt32)) :
    Unit.resumed place 0 specs = Unit.numbered place specs := by
  cases specs <;> rfl

/-- How often units may be tried beyond the first time. -/
def allowance : List (π × UInt32) → Nat
  | [] => 0
  | (_, budget) :: rest => budget.toNat - 1 + allowance rest

/-- The units of `done` have been delivered, those of `todo` are left, and the first one of them has
been tried `tried` times. -/
structure Standing (done todo : List (π × UInt32)) (tried : Nat)
    (units : List (Unit (Nat × π))) (record : List Trial) : Prop where
  orderly : Orderly (done ++ todo) record
  units : units = Unit.resumed done.length tried todo
  delivered : ∀ i < done.length, ⟨i, .delivered⟩ ∈ record
  pending : ⟨done.length, .delivered⟩ ∉ record
  reached : ∀ a ∈ record, a.place ≤ done.length
  left : ∀ p rest, todo = p :: rest → tried + 1 ≤ max 1 p.2.toNat
  count : tries done.length record = tried
  unanswered : ∀ earlier a later, record = earlier ++ a :: later → ¬ a.Final (done ++ todo) earlier

theorem standing_start (specs : List (π × UInt32)) :
    Standing [] specs 0 (Unit.numbered 0 specs) [] where
  orderly := by
    constructor
    case budget =>
      intro i p _
      exact Nat.zero_le _
    case inOrder =>
      intro earlier i o later h
      simp at h
    case once =>
      intro earlier i later h
      simp at h
    case final =>
      intro earlier a later h
      simp at h
  units := (Unit.resumed_zero 0 specs).symm
  delivered := by
    intro i hi
    exact absurd hi (Nat.not_lt_zero i)
  pending := List.not_mem_nil
  reached := by
    intro a ha
    cases ha
  left := by
    intro p rest _
    exact Nat.le_max_left _ _
  count := rfl
  unanswered := by
    intro earlier a later h
    simp at h

namespace Standing

variable {done rest : List (π × UInt32)} {p : π × UInt32} {tried : Nat}
  {units : List (Unit (Nat × π))} {record : List Trial}

/-- Any call for the first unit keeps the record orderly. -/
theorem concat (h : Standing done (p :: rest) tried units record) (o : Outcome) :
    Orderly (done ++ p :: rest) (record ++ [⟨done.length, o⟩]) := by
  refine h.orderly.concat h.delivered h.pending ?_ h.unanswered o
  intro q hq
  obtain rfl : p = q := by simpa using hq
  rw [h.count]
  exact h.left p rest rfl

/-- No call goes beyond the first unit. -/
theorem reached_concat (h : Standing done (p :: rest) tried units record) (o : Outcome) :
    ∀ a ∈ record ++ [⟨done.length, o⟩], a.place ≤ done.length := by
  intro a ha
  rcases List.mem_append.mp ha with ha | ha
  · exact h.reached a ha
  · obtain rfl := List.mem_singleton.mp ha
    exact Nat.le_refl _

/-- Until a final answer there has been none. -/
theorem unanswered_concat (h : Standing done (p :: rest) tried units record) {o : Outcome}
    (ho : ¬ Trial.Final (done ++ p :: rest) record ⟨done.length, o⟩) :
    ∀ earlier a later, record ++ [⟨done.length, o⟩] = earlier ++ a :: later →
      ¬ a.Final (done ++ p :: rest) earlier := by
  intro earlier a later heq
  rcases cut_concat heq with ⟨-, rfl, rfl⟩ | ⟨later', -, hcut⟩
  · exact ho
  · exact h.unanswered earlier a later' hcut

/-- The first unit is delivered. -/
theorem deliver (h : Standing done (p :: rest) tried units record) :
    Standing (done ++ [p]) rest 0 (Unit.numbered (done.length + 1) rest)
      (record ++ [⟨done.length, .delivered⟩]) := by
  -- the units are counted anew from the one that has been delivered
  have hlength : (done ++ [p]).length = done.length + 1 := by simp
  have hspecs : done ++ [p] ++ rest = done ++ p :: rest := by simp
  have hreached := h.reached_concat .delivered
  constructor
  case orderly =>
    rw [hspecs]
    exact h.concat .delivered
  case units => rw [hlength, Unit.resumed_zero]
  case delivered =>
    intro i hi
    rw [hlength] at hi
    rcases Nat.lt_succ_iff_lt_or_eq.mp hi with hi | rfl
    · exact List.mem_append_left _ (h.delivered i hi)
    · exact List.mem_append_right _ (List.mem_singleton_self _)
  case pending =>
    intro hmem
    have hle := hreached _ hmem
    rw [hlength] at hle
    exact absurd hle (Nat.not_succ_le_self _)
  case reached =>
    intro a ha
    rw [hlength]
    exact Nat.le_succ_of_le (hreached a ha)
  case left =>
    intro q later _
    exact Nat.le_max_left _ _
  case count =>
    rw [hlength, tries, List.countP_eq_zero]
    intro a ha hplace
    have hle := hreached a ha
    rw [of_decide_eq_true hplace] at hle
    exact absurd hle (Nat.not_succ_le_self _)
  case unanswered =>
    rw [hspecs]
    exact h.unanswered_concat id

/-- The first unit has to wait, and may be tried again. -/
theorem wait (h : Standing done (p :: rest) tried units record) {ms : Nat} (hms : 0 < ms)
    (hleft : tried + 1 < p.2.toNat) :
    Standing done (p :: rest) (tried + 1)
      (⟨(done.length, p.1), tried + 1, p.2.toNat⟩ :: Unit.numbered (done.length + 1) rest)
      (record ++ [⟨done.length, .rateLimited ms⟩]) := by
  -- nothing changes but the count of the first unit
  constructor
  case orderly => exact h.concat _
  case units => rfl
  case delivered =>
    intro i hi
    exact List.mem_append_left _ (h.delivered i hi)
  case pending =>
    intro hmem
    rcases List.mem_append.mp hmem with hmem | hmem
    · exact h.pending hmem
    · cases List.mem_singleton.mp hmem
  case reached => exact h.reached_concat _
  case left =>
    intro q later heq
    obtain ⟨rfl, rfl⟩ := List.cons.inj heq
    exact Nat.le_trans hleft (Nat.le_max_right _ _)
  case count => rw [tries_concat, h.count, if_pos rfl]
  case unanswered =>
    refine h.unanswered_concat ?_
    rintro (hzero | ⟨q, hq, hspent⟩)
    · exact absurd hzero (Nat.ne_of_gt hms)
    · obtain rfl : p = q := by simpa using hq
      dsimp only at hspent
      rw [h.count] at hspent
      omega

/-- With a final answer the calls have come to an end. -/
theorem ended (h : Standing done (p :: rest) tried units record) {o : Outcome}
    (ho : Trial.Final (done ++ p :: rest) record ⟨done.length, o⟩) :
    Ended (done ++ p :: rest) (record ++ [⟨done.length, o⟩]) :=
  .inr ⟨record, ⟨done.length, o⟩, rfl, ho, h.reached_concat o⟩

end Standing

/-! ### Rounds -/

/-- What a round leaves: the calls have come to an end, or there is time to wait and fewer spare
attempts are left than before. -/
inductive Left (specs : List (π × UInt32)) (spare : Nat) (e : Entry (Nat × π)) (wait : Nat)
    (record : List Trial) : Prop
  | ended (hwait : wait = 0) (hunits : e.units = []) (horderly : Orderly specs record)
      (hended : Ended specs record)
  | waits {done todo : List (π × UInt32)} {tried : Nat} (hwait : wait ≠ 0) (htodo : todo ≠ [])
      (hspecs : specs = done ++ todo) (hstanding : Standing done todo tried e.units record)
      (hspare : allowance todo - tried < spare)

theorem Left.mono {specs : List (π × UInt32)} {spare spare' : Nat} {e : Entry (Nat × π)}
    {wait : Nat} {record : List Trial} (h : Left specs spare e wait record)
    (hle : spare ≤ spare') : Left specs spare' e wait record := by
  cases h with
  | ended hwait hunits horderly hended => exact .ended hwait hunits horderly hended
  | waits hwait htodo hspecs hstanding hspare =>
    exact .waits hwait htodo hspecs hstanding (Nat.lt_of_lt_of_le hspare hle)

namespace Entry

/-- A round of calls. -/
theorem processUnits_left (send : σ → π → Outcome × σ) (delay : Bool)
    {done todo : List (π × UInt32)} {tried : Nat} {units : List (Unit (Nat × π))}
    {record : List Trial} (s : σ) (h : Standing done todo tried units record) :
    let r := processUnits (recording send) delay units (s, record)
    Left (done ++ todo) (allowance todo - tried) r.1 r.2.1 r.2.2.2 := by
  -- by induction on the units that are left; only a delivery leads to the next one
  induction todo generalizing done tried units record s with
  | nil =>
    obtain rfl := h.units
    have hall : ∀ i < (done ++ []).length, ⟨i, .delivered⟩ ∈ record := by simpa using h.delivered
    exact .ended rfl rfl h.orderly (.inl hall)
  | cons p rest ih =>
    have hunits : units = ⟨(done.length, p.1), tried, p.2.toNat⟩ ::
      Unit.numbered (done.length + 1) rest := h.units
    have hleft : tried + 1 ≤ max 1 p.2.toNat := h.left p rest rfl
    subst hunits
    rcases hsend : send s p.1 with ⟨o, s'⟩
    cases o with
    | delivered =>
      simp only [processUnits, recording, hsend]
      have hround := ih s' h.deliver
      have hspecs : done ++ [p] ++ rest = done ++ p :: rest := by simp
      rw [hspecs] at hround
      refine hround.mono ?_
      simp only [allowance]
      omega
    | failed reason =>
      simp only [processUnits, recording, hsend, answer]
      exact .ended rfl rfl (h.concat _) (h.ended trivial)
    | rateLimited ms =>
      simp only [processUnits, recording, hsend, answer]
      -- it is tried again unless the wait is zero or its budget is spent, and both are final
      by_cases hretry : 0 < ms ∧ tried + 1 < p.2.toNat
      · simp only [hretry, and_self, if_true]
        refine .waits (Nat.ne_of_gt hretry.1) (List.cons_ne_nil p rest) rfl
          (h.wait hretry.1 hretry.2) ?_
        simp only [allowance]
        omega
      · simp only [hretry, if_false]
        refine .ended rfl rfl (h.concat _) (h.ended ?_)
        by_cases hms : ms = 0
        · exact .inl hms
        · refine .inr ⟨p, by simp, ?_⟩
          dsimp only
          rw [h.count]
          omega

/-- Processes an entry, and then again, at most `n` times, as long as there is time to wait. -/
def processAgain (send : σ → π → Outcome × σ) (e : Entry π) (s : σ) : Nat → Entry π × Nat × σ
  | 0 => e.process send s
  | n + 1 =>
    let r := processAgain send e s n
    if r.2.1 = 0 then r else r.1.process send r.2.2

/-- After `n` further rounds the calls have come to an end, or so many spare attempts are gone. -/
theorem processAgain_left (send : σ → π → Outcome × σ) (specs : List (π × UInt32)) (delay : Bool)
    (s : σ) (n : Nat) :
    let r := processAgain (recording send) ⟨Unit.numbered 0 specs, delay⟩ (s, []) n
    Left specs (allowance specs - n) r.1 r.2.1 r.2.2.2 := by
  induction n with
  | zero => exact processUnits_left send delay s (standing_start specs)
  | succ n ih =>
    simp only [processAgain]
    generalize processAgain (recording send) _ (s, []) n = r at ih
    -- a round is made only while there is something to wait for
    obtain ⟨e, wait, s', record⟩ := r
    cases ih with
    | ended hwait hunits horderly hended =>
      obtain rfl : wait = 0 := hwait
      exact .ended rfl hunits horderly hended
    | waits hwait htodo hspecs hstanding hspare =>
      rw [if_neg hwait, hspecs]
      refine (processUnits_left send e.delay s' hstanding).mono ?_
      rw [← hspecs]
      omega

end Entry

/-! ### Forgetting the numbers -/

/-- The unit with its payload alone. -/
def Unit.bare (u : Unit (Nat × π)) : Unit π := ⟨u.payload.2, u.retryCount, u.maxRetry⟩

/-- The entry with the payloads alone. -/
def Entry.bare (e : Entry (Nat × π)) : Entry π := ⟨e.units.map Unit.bare, e.delay⟩

theorem Unit.map_bare_numbered (place : Nat) (specs : List (π × UInt32)) :
    (Unit.numbered place specs).map Unit.bare = specs.map fun p => Unit.new p.1 p.2.toNat := by
  induction specs generalizing place with
  | nil => rfl
  | cons p rest ih => exact congrArg (_ :: ·) (ih (place + 1))

namespace Entry

theorem answer_bare (e : Entry (Nat × π)) (o : Outcome) :
    e.bare.answer o = ((e.answer o).1.bare, (e.answer o).2) := by
  rcases hunits : e.units with - | ⟨u, rest⟩
  · simp [answer, bare, hunits]
  · cases o with
    | delivered => simp [answer, bare, hunits]
    | failed reason => simp [answer, bare, hunits]
    | rateLimited wait =>
      have hretries : (Unit.bare u).retryCount = u.retryCount := rfl
      have hmax : (Unit.bare u).maxRetry = u.maxRetry := rfl
      by_cases hretry : 0 < wait ∧ u.retryCount + 1 < u.maxRetry
      · simp [answer, bare, hunits, hretry, Unit.bare]
      · simp [answer, bare, hunits, hretries, hmax, hretry]

theorem processUnits_bare (send : σ → π → Outcome × σ) (delay : Bool)
    (units : List (Unit (Nat × π))) (s : σ × List Trial) :
    let r := processUnits (recording send) delay units s
    processUnits send delay (units.map Unit.bare) s.1 = (r.1.bare, r.2.1, r.2.2.1) := by
  induction units generalizing s with
  | nil => rfl
  | cons u rest ih =>
    have hanswer (o : Outcome) := answer_bare ⟨u :: rest, delay⟩ o
    rcases hsend : send s.1 u.payload.2 with ⟨o, s'⟩
    have hbare : send s.1 (Unit.bare u).payload = (o, s') := hsend
    simp only [List.map_cons, processUnits, recording, hsend, hbare]
    cases o with
    | delivered => exact ih (s', _)
    | failed reason => exact congrArg (fun r => (r.1, r.2, s')) (hanswer (.failed reason))
    | rateLimited wait => exact congrArg (fun r => (r.1, r.2, s')) (hanswer (.rateLimited wait))

theorem processAgain_bare (send : σ → π → Outcome × σ) (e : Entry (Nat × π))
    (s : σ × List Trial) (n : Nat) :
    let r := processAgain (recording send) e s n
    processAgain send e.bare s.1 n = (r.1.bare, r.2.1, r.2.2.1) := by
  induction n with
  | zero => exact processUnits_bare send e.delay e.units s
  | succ n ih =>
    simp only [processAgain, ih]
    generalize processAgain (recording send) e s n = r
    split
    · rfl
    · exact processUnits_bare send r.1.delay r.1.units r.2.2

end Entry

/-! ### What the calls amount to -/

/-- What holds after every round.

* `waits`: there is time to wait just if something is left.
* `counter`: the counter of a unit says how often it has been tried, and has room for another
  try. -/
structure Accounted (specs : List (π × UInt32)) (e : Entry (Nat × π)) (wait : Nat)
    (record : List Trial) : Prop extends Orderly specs record where
  waits : wait ≠ 0 ↔ e.units ≠ []
  counter : ∀ u ∈ e.units, u.retryCount = tries u.payload.1 record ∧ u.retryCount + 1 < bound32
  ended : e.units = [] → Ended specs record

theorem Unit.of_mem_numbered {place : Nat} {specs : List (π × UInt32)} {u : Unit (Nat × π)}
    (h : u ∈ Unit.numbered place specs) : u.retryCount = 0 ∧ place ≤ u.payload.1 := by
  induction specs generalizing place with
  | nil => cases h
  | cons p rest ih =>
    rcases List.mem_cons.mp h with rfl | h
    · exact ⟨rfl, Nat.le_refl place⟩
    · obtain ⟨hcount, hplace⟩ := ih h
      exact ⟨hcount, Nat.le_of_succ_le hplace⟩

/-- The counters of the units that are left are right and have room. -/
theorem Standing.counter {done todo : List (π × UInt32)} {tried : Nat}
    {units : List (Unit (Nat × π))} {record : List Trial}
    (h : Standing done todo tried units record) :
    ∀ u ∈ units, u.retryCount = tries u.payload.1 record ∧ u.retryCount + 1 < bound32 := by
  intro u hu
  rw [h.units] at hu
  -- the first unit has been tried as often as its counter says, and it may be tried once more
  rcases todo with - | ⟨⟨p, budget⟩, rest⟩
  · cases hu
  · rcases List.mem_cons.mp hu with rfl | hu
    · refine ⟨h.count.symm, ?_⟩
      have hleft : tried + 1 ≤ max 1 budget.toNat := h.left (p, budget) rest rfl
      have hbudget : budget.toNat < 4294967296 := budget.toNat_lt
      show tried + 1 < 4294967296
      omega
    · -- the units behind the first one have not been tried
      obtain ⟨hcount, hplace⟩ := Unit.of_mem_numbered hu
      have huntried : tries u.payload.1 record = 0 := by
        rw [tries, List.countP_eq_zero]
        intro a ha heq
        have hle := h.reached a ha
        rw [of_decide_eq_true heq] at hle
        omega
      rw [hcount, huntried]
      exact ⟨rfl, by decide⟩

theorem Left.accounted {specs : List (π × UInt32)} {spare : Nat} {e : Entry (Nat × π)} {wait : Nat}
    {record : List Trial} (h : Left specs spare e wait record) :
    Accounted specs e wait record := by
  cases h with
  | ended hwait hunits horderly hended =>
    refine ⟨horderly, ?_, ?_, fun _ => hended⟩
    · simp [hwait, hunits]
    · simp [hunits]
  | @waits done todo tried hwait htodo hspecs hstanding hspare =>
    have hne : e.units ≠ [] := by
      rw [hstanding.units]
      cases todo with
      | nil => exact absurd rfl htodo
      | cons p rest => exact List.cons_ne_nil _ _
    refine ⟨hspecs ▸ hstanding.orderly, ?_, hstanding.counter, fun hnil => absurd hnil hne⟩
    exact ⟨fun _ => hne, fun _ => hwait⟩

namespace Entry

/-- Whatever the service answers, the calls for new units are accounted for after every round, and
they end with the first round or with one of as many further rounds as there are spare attempts.
The record says what happens without it. -/
theorem attempts_accounted (send : σ → π → Outcome × σ) (specs : List (π × UInt32)) (delay : Bool)
    (s : σ) :
    let rounds := processAgain send ⟨specs.map fun p => Unit.new p.1 p.2.toNat, delay⟩ s
    let recorded := processAgain (recording send) ⟨Unit.numbered 0 specs, delay⟩ (s, [])
    (∀ n, Accounted specs (recorded n).1 (recorded n).2.1 (recorded n).2.2.2 ∧
      rounds n = ((recorded n).1.bare, (recorded n).2.1, (recorded n).2.2.1)) ∧
    (rounds (allowance specs)).2.1 = 0 := by
  intro rounds recorded
  -- the numbered entry is accounted for, and without the numbers it is the entry itself
  have hleft := processAgain_left send specs delay s
  have hbare : ∀ n, rounds n =
      ((recorded n).1.bare, (recorded n).2.1, (recorded n).2.2.1) := by
    intro n
    have hround := processAgain_bare send ⟨Unit.numbered 0 specs, delay⟩ (s, []) n
    rwa [Entry.bare, Unit.map_bare_numbered] at hround
  refine ⟨fun n => ⟨(hleft n).accounted, hbare n⟩, ?_⟩
  rw [hbare]
  cases hleft (allowance specs) with
  | ended hwait _ _ _ => exact hwait
  | waits _ _ _ _ hspare =>
    rw [Nat.sub_self] at hspare
    exact absurd hspare (Nat.not_lt_zero _)

-- the second unit is given up when it is asked to wait again, and the third one is never tried
example : (processAgain (recording fun (os : List Outcome) (_ : String) =>
      (os.headD .delivered, os.tail)) ⟨Unit.numbered 0 [("a", 3), ("b", 2), ("c", 3)], false⟩
      ([.rateLimited 5, .delivered, .rateLimited 5, .rateLimited 5], []) 4).2.2.2 =
    [⟨0, .rateLimited 5⟩, ⟨0, .delivered⟩, ⟨1, .rateLimited 5⟩, ⟨1, .rateLimited 5⟩] := by
  decide

end Entry

end Courier.Delivery

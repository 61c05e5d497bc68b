import Courier.Proofs.Json.Reading
import Courier.Task.Basic
import Mathlib.Logic.Function.Basic

/-!
Options of a task, and which of them count.

Every option writes one `Target`, which its kind decides; the two kinds of a process time write one,
and every unknown kind writes the retry budget.  What an option gives to its target is said in two
steps.  `Means` says which known option is written, by its kind and its value and apart from the
reader (`ofJobOption_eq_ok_iff`).  `Task.decided` is the queued task of a firing when at most one
option is known for each target, one field for each of them.

A firing goes through its options one after the other; `Task.fire_eq_decided` says that it comes out
as decided by the last option for each target.  The induction needs any choice to begin with, which
an option for a target overrides (`Task.apply_decided`).

A list is read option by option, and refused with the error of the first one that is
(`ofJobOptions_eq_ok_iff`, `ofJobOptions_eq_error_iff`).  As reading does not change the targets,
the last option that is written for a target is the last one that is read for it
(`last?_ofJobOptions`).

Main statement: of a list of options only the last one for each target takes effect, whatever stands
around it, and a list is refused just if one of its options is (`JobOption.lastCounts`).
-/

namespace Courier

/-- What an option decides. -/
inductive Target
  | queue
  | timeout
  | deadline
  | unique
  | processTime
  | taskId
  | retention
  | group
  | maxRetry
deriving DecidableEq

/-- The kinds of options with their targets. -/
def Target.kinds : List (String × Target) :=
  [("queue", .queue), ("timeout", .timeout), ("deadline", .deadline), ("unique", .unique),
    ("process-at", .processTime), ("process-in", .processTime), ("task-id", .taskId),
    ("retention", .retention), ("group", .group)]

/-- The target of a kind; every other kind writes the retry budget. -/
def Target.ofKind (kind : String) : Target :=
  ((kinds.find? fun p => kind = p.1).map Prod.snd).getD .maxRetry

/-! ### Targets -/

namespace TaskOption

/-- What an option writes. -/
def target : TaskOption → Target
  | .queue _ => .queue
  | .timeout _ => .timeout
  | .deadline _ => .deadline
  | .unique _ => .unique
  | .processAt _ | .processIn _ => .processTime
  | .taskId _ => .taskId
  | .retention _ => .retention
  | .group _ => .group
  | .maxRetry _ => .maxRetry

/-- The text that an option gives. -/
def text? : TaskOption → Option String
  | .queue s | .taskId s | .group s => some s
  | _ => none

/-- The length of time that an option gives. -/
def seconds? : TaskOption → Option Nat
  | .timeout n | .unique n | .retention n => some n
  | _ => none

/-- The instant that an option gives to a firing. -/
def instant? (now : Time.Instant) : TaskOption → Option Time.Instant
  | .deadline a | .processAt a => some a
  | .processIn n => some (Task.after now n)
  | _ => none

/-- The retry budget that an option gives. -/
def count? : TaskOption → Option Nat
  | .maxRetry n => some n
  | _ => none

/-- The last option for a target. -/
def last? (ts : List TaskOption) (target : Target) : Option TaskOption :=
  (ts.filter fun t => t.target = target).getLast?

end TaskOption

namespace JobOption

/-- What an option of a job writes. -/
def target (o : JobOption) : Target := .ofKind o.kind

/-- The option of a task that an option of a job stands for, if its value can be used. -/
def meaning? (o : JobOption) : Option TaskOption := (TaskOption.ofJobOption o).toOption

/-- The last option for a target. -/
def last? (os : List JobOption) (target : Target) : Option JobOption :=
  (os.filter fun o => o.target = target).getLast?

end JobOption

/-- An option writes what its kind says. -/
theorem TaskOption.target_of_read {kind : String} {v : Json.Value} {t : TaskOption}
    (h : read kind v = .ok t) : t.target = .ofKind kind := by
  unfold read at h
  split_ifs at h
  all_goals
    obtain ⟨a, -, rfl⟩ := Json.map_eq_ok.mp h
    simp [target, Target.ofKind, Target.kinds, *]

theorem JobOption.target_of_ofJobOption {o : JobOption} {t : TaskOption}
    (h : TaskOption.ofJobOption o = .ok t) : t.target = o.target := by
  unfold TaskOption.ofJobOption at h
  split at h
  · rename_i hread
    obtain rfl := Except.ok.inj h
    exact TaskOption.target_of_read hread
  · cases h

/-! ### What is decided -/

/-- The queued task of a firing when at most one option is known for each target, and the seconds
for which it is to be unique. -/
def Task.decided (t : Task) (entry : Nat) (now : Time.Instant)
    (choice : Target → Option TaskOption) : QueuedTask × Option Nat :=
  ({ id := (choice .taskId).bind TaskOption.text?
     entry
     name := t.name
     payload := t.payload
     queue := ((choice .queue).bind TaskOption.text?).getD defaultQueue
     maxRetry := ((choice .maxRetry).bind TaskOption.count?).getD defaultTaskMaxRetry
     timeout := (choice .timeout).bind TaskOption.seconds?
     deadline := (choice .deadline).bind (TaskOption.instant? now)
     processAt := ((choice .processTime).bind (TaskOption.instant? now)).getD now
     retention := (choice .retention).bind TaskOption.seconds?
     group := (choice .group).bind TaskOption.text?
     enqueuedAt := now },
   (choice .unique).bind TaskOption.seconds?)

/-- An option takes the place of the one that was known for its target. -/
theorem Task.apply_decided (t : Task) (entry : Nat) (now : Time.Instant)
    (choice : Target → Option TaskOption) (o : TaskOption) :
    apply now (t.decided entry now choice) o =
      t.decided entry now (Function.update choice o.target (some o)) := by
  cases o <;> rfl

/-- The last option for a target among more than one. -/
theorem TaskOption.last?_cons (o : TaskOption) (ts : List TaskOption)
    (choice : Target → Option TaskOption) :
    (fun target => (last? (o :: ts) target).or (choice target)) =
      fun target => (last? ts target).or (Function.update choice o.target (some o) target) := by
  funext target
  by_cases h : o.target = target
  · subst h
    rw [Function.update_self, last?, List.filter_cons_of_pos (by simp), List.getLast?_cons]
    rcases hlast : last? ts o.target with - | o' <;> rw [last?] at hlast <;> simp [hlast]
  · have hne : ¬ target = o.target := fun heq => h heq.symm
    rw [Function.update_of_ne hne, last?, List.filter_cons_of_neg (by simpa using h)]
    rfl

/-- A firing with options is decided by the last one for each target. -/
theorem Task.fire_eq_decided (t : Task) (entry : Nat) (ts : List TaskOption) (now : Time.Instant) :
    t.fire entry ts now = t.decided entry now (TaskOption.last? ts) := by
  have hfold : ∀ (ts : List TaskOption) (choice : Target → Option TaskOption),
      ts.foldl (apply now) (t.decided entry now choice) =
        t.decided entry now fun target => (TaskOption.last? ts target).or (choice target) := by
    intro ts
    induction ts with
    | nil =>
      intro choice
      rfl
    | cons o ts ih =>
      intro choice
      rw [List.foldl_cons, apply_decided, ih, TaskOption.last?_cons]
  have hdraft : t.draft entry now = t.decided entry now fun _ => none := rfl
  rw [fire, hdraft, hfold ts fun _ => none]
  simp only [Option.or_none]

/-- Options change neither the entry nor the name nor the payload. -/
@[simp] theorem Task.entry_fire (t : Task) (entry : Nat) (ts : List TaskOption)
    (now : Time.Instant) : (t.fire entry ts now).1.entry = entry := by
  rw [fire_eq_decided]
  rfl

@[simp] theorem Task.payload_fire (t : Task) (entry : Nat) (ts : List TaskOption)
    (now : Time.Instant) : (t.fire entry ts now).1.payload = t.payload := by
  rw [fire_eq_decided]
  rfl

/-! ### What an option means -/

namespace JobOption

/-- A value that gives a text, which may not be empty. -/
def GivesText (v : Json.Value) (s : String) : Prop := v = .string s ∧ s ≠ ""

/-- A value that gives a count: a whole number, or a text of its digits with blanks around it. -/
def GivesCount (v : Json.Value) (n : Nat) : Prop :=
  v = .number (.whole n) ∨
    ∃ s, v = .string s ∧ TaskOption.countOfText? (Text.trimChars s.toList) = some n

/-- A value that gives an instant: the seconds since 1970, or a text in the exact form. -/
def GivesInstant (v : Json.Value) (a : Time.Instant) : Prop :=
  (∃ n, v = .number (.whole n) ∧ Time.Instant.ofSeconds? n = some a) ∨
    ∃ s, v = .string s ∧ Time.Timestamp.strict? s = some a

/-- What an option means, by its kind and its value.  A kind that is not a known one gives a retry
budget. -/
def Means (o : JobOption) : TaskOption → Prop
  | .queue s => o.kind = "queue" ∧ GivesText o.value s
  | .timeout n => o.kind = "timeout" ∧ GivesCount o.value n
  | .deadline a => o.kind = "deadline" ∧ GivesInstant o.value a
  | .unique n => o.kind = "unique" ∧ GivesCount o.value n
  | .processAt a => o.kind = "process-at" ∧ GivesInstant o.value a
  | .processIn n => o.kind = "process-in" ∧ GivesCount o.value n
  | .taskId s => o.kind = "task-id" ∧ GivesText o.value s
  | .retention n => o.kind = "retention" ∧ GivesCount o.value n
  | .group s => o.kind = "group" ∧ GivesText o.value s
  | .maxRetry n => o.target = .maxRetry ∧ GivesCount o.value n ∧ n < bound32

theorem textValue_eq_ok_iff {v : Json.Value} {s : String} :
    TaskOption.textValue v = .ok s ↔ GivesText v s := by
  cases v with
  | string t =>
    by_cases h : t = ""
    · subst h
      simp only [TaskOption.textValue, if_true, reduceCtorEq, false_iff]
      rintro ⟨heq, hne⟩
      exact hne (Json.Value.string.inj heq).symm
    · simp only [TaskOption.textValue, h, if_false, Except.ok.injEq, GivesText,
        Json.Value.string.injEq]
      constructor
      · rintro rfl
        exact ⟨rfl, h⟩
      · exact fun hs => hs.1
  | _ => simp [TaskOption.textValue, GivesText]

theorem countValue_eq_ok_iff {v : Json.Value} {n : Nat} :
    TaskOption.countValue v = .ok n ↔ GivesCount v n := by
  cases v with
  | string t =>
    -- a text counts if what is left without blanks is a number
    simp only [TaskOption.countValue, GivesCount, reduceCtorEq, false_or, Json.Value.string.injEq]
    rcases hcount : TaskOption.countOfText? (Text.trimChars t.toList) with - | m
    · simp [hcount]
    · simp [hcount]
  | number x =>
    cases x with
    | whole k =>
      -- of numbers only the whole ones from zero on count
      by_cases hk : 0 ≤ k
      · obtain ⟨m, rfl⟩ := Int.eq_ofNat_of_zero_le hk
        simp [TaskOption.countValue, GivesCount]
      · have hne : k ≠ (n : Int) := by omega
        simp [TaskOption.countValue, GivesCount, hk, hne]
    | real x => simp [TaskOption.countValue, GivesCount]
  | _ => simp [TaskOption.countValue, GivesCount]

theorem timestampValue_eq_ok_iff {v : Json.Value} {a : Time.Instant} :
    TaskOption.timestampValue v = .ok a ↔ GivesInstant v a := by
  cases v with
  | string t =>
    rcases hstrict : Time.Timestamp.strict? t with - | b <;>
      simp [TaskOption.timestampValue, GivesInstant, hstrict]
  | number x =>
    cases x with
    | whole k =>
      rcases hseconds : Time.Instant.ofSeconds? k with - | b <;>
        simp [TaskOption.timestampValue, GivesInstant, hseconds]
    | real x => simp [TaskOption.timestampValue, GivesInstant]
  | _ => simp [TaskOption.timestampValue, GivesInstant]

theorem retryValue_eq_ok_iff {v : Json.Value} {n : Nat} :
    TaskOption.retryValue v = .ok n ↔ GivesCount v n ∧ n < bound32 := by
  rw [← countValue_eq_ok_iff, TaskOption.retryValue]
  rcases TaskOption.countValue v with e | m
  · simp
  · by_cases hm : m < bound32
    · simp only [hm, if_true, Except.ok.injEq]
      exact ⟨fun h => ⟨h, h ▸ hm⟩, fun h => h.1⟩
    · simp only [hm, if_false, reduceCtorEq, Except.ok.injEq, false_iff]
      rintro ⟨rfl, hlt⟩
      exact hm hlt

/-- An option is read as what it means. -/
theorem ofJobOption_eq_ok_iff {o : JobOption} {t : TaskOption} :
    TaskOption.ofJobOption o = .ok t ↔ o.Means t := by
  have hread : TaskOption.ofJobOption o = .ok t ↔ TaskOption.read o.kind o.value = .ok t := by
    unfold TaskOption.ofJobOption
    split <;> simp [*]
  rw [hread]
  obtain ⟨kind, v⟩ := o
  unfold TaskOption.read
  -- one branch for each known kind, and one for all others
  split_ifs
  all_goals
    simp only [Json.map_eq_ok, textValue_eq_ok_iff, countValue_eq_ok_iff, timestampValue_eq_ok_iff,
      retryValue_eq_ok_iff]
    cases t <;> simp_all [Means, target, Target.ofKind, Target.kinds]

/-! ### Options of a job -/

open TaskOption

theorem meaning?_eq_some_iff {o : JobOption} {t : TaskOption} :
    o.meaning? = some t ↔ ofJobOption o = .ok t := by
  rw [meaning?]
  rcases ofJobOption o with e | t' <;> simp [Except.toOption]

/-- What an option means is the meaning of it. -/
theorem eq_bind_of_rel {o? : Option JobOption} {t? : Option TaskOption}
    (h : Option.Rel Means o? t?) : t? = o?.bind meaning? := by
  cases h with
  | none => rfl
  | some hmeans => exact (meaning?_eq_some_iff.mpr (ofJobOption_eq_ok_iff.mpr hmeans)).symm

/-- A list is accepted if each of its options is, and means what its options mean. -/
theorem ofJobOptions_eq_ok_iff {os : List JobOption} {ts : List TaskOption} :
    ofJobOptions os = .ok ts ↔ (∀ o ∈ os, o.meaning?.isSome) ∧ os.filterMap meaning? = ts := by
  induction os generalizing ts with
  | nil => simp [ofJobOptions]
  | cons o os ih =>
    rw [ofJobOptions, List.forall_mem_cons]
    rcases hmeaning : ofJobOption o with e | t
    · simp [meaning?, hmeaning, Except.toOption]
    · have hsome : o.meaning? = some t := meaning?_eq_some_iff.mpr hmeaning
      rw [List.filterMap_cons_some hsome, hsome]
      rcases hrest : ofJobOptions os with e | ts'
      · have hnone : ¬ ∀ o ∈ os, o.meaning?.isSome := by
          intro hall
          have hok := ih.mpr ⟨hall, rfl⟩
          rw [hrest] at hok
          cases hok
        simp [hnone]
      · obtain ⟨hall, rfl⟩ := ih.mp hrest
        simpa using fun _ => hall

/-- A list is refused with the error of the first option that is. -/
theorem ofJobOptions_eq_error_iff {os : List JobOption} {e : String × OptionFault} :
    ofJobOptions os = .error e ↔ ∃ before o after, os = before ++ o :: after ∧
      ofJobOption o = .error e ∧ ∀ p ∈ before, p.meaning?.isSome := by
  induction os with
  | nil => simp [ofJobOptions]
  | cons o os ih =>
    rw [ofJobOptions]
    -- the first option is the one that is refused, or it is read and another one is
    rcases hmeaning : ofJobOption o with e' | t
    · have hnone : o.meaning? = none := by simp [meaning?, hmeaning, Except.toOption]
      constructor
      · intro herror
        obtain rfl := Except.error.inj herror
        exact ⟨[], o, os, rfl, hmeaning, by simp⟩
      · rintro ⟨before, p, after, hos, hp, hbefore⟩
        cases before with
        | nil =>
          obtain ⟨rfl, -⟩ := List.cons.inj hos
          rw [hmeaning] at hp
          exact congrArg _ (Except.error.inj hp)
        | cons q before =>
          obtain ⟨rfl, -⟩ := List.cons.inj hos
          have hsome := hbefore o List.mem_cons_self
          rw [hnone] at hsome
          cases hsome
    · have hsome : o.meaning? = some t := meaning?_eq_some_iff.mpr hmeaning
      have hrest : (∃ before p after, o :: os = before ++ p :: after ∧ ofJobOption p = .error e ∧
          ∀ q ∈ before, q.meaning?.isSome) ↔ ofJobOptions os = .error e := by
        rw [ih]
        constructor
        · rintro ⟨before, p, after, hos, hp, hbefore⟩
          cases before with
          | nil =>
            obtain ⟨rfl, -⟩ := List.cons.inj hos
            rw [hmeaning] at hp
            cases hp
          | cons q before =>
            exact ⟨before, p, after, (List.cons.inj hos).2, hp,
              fun r hr => hbefore r (List.mem_cons_of_mem _ hr)⟩
        · rintro ⟨before, p, after, rfl, hp, hbefore⟩
          refine ⟨o :: before, p, after, rfl, hp, ?_⟩
          simpa [hsome] using hbefore
      rw [hrest]
      rcases ofJobOptions os with e' | ts <;> simp

theorem ofJobOptions_singleton_eq_error_iff {o : JobOption} {e : String × OptionFault} :
    ofJobOptions [o] = .error e ↔ ofJobOption o = .error e := by
  rw [ofJobOptions]
  rcases ofJobOption o with e' | t <;> simp [ofJobOptions]

/-- The last option for a target means the last option of a task for it. -/
theorem last?_ofJobOptions {os : List JobOption} {ts : List TaskOption}
    (h : ofJobOptions os = .ok ts) :
    TaskOption.last? ts = fun target => (last? os target).bind meaning? := by
  obtain ⟨hall, rfl⟩ := ofJobOptions_eq_ok_iff.mp h
  funext target
  have hfilter : (os.filterMap meaning?).filter (fun t => t.target = target) =
      (os.filter fun o => o.target = target).filterMap meaning? := by
    rw [List.filter_filterMap, List.filterMap_filter]
    refine List.filterMap_congr fun o ho => ?_
    obtain ⟨t, ht⟩ := Option.isSome_iff_exists.mp (hall o ho)
    rw [ht, ← target_of_ofJobOption (meaning?_eq_some_iff.mp ht)]
    by_cases htarget : t.target = target <;> simp [htarget]
  rw [TaskOption.last?, hfilter, last?]
  -- nothing is written for the target, or there is a last option for it
  rcases List.eq_nil_or_concat (os.filter fun o => o.target = target) with hnil | ⟨init, o, hlast⟩
  · rw [hnil]
    rfl
  · have hmem : o ∈ os.filter fun o => o.target = target := by simp [hlast]
    obtain ⟨t, ht⟩ := Option.isSome_iff_exists.mp (hall o (List.mem_filter.mp hmem).1)
    simp [hlast, ht]

theorem isOk_ofJobOptions_iff {os : List JobOption} :
    (ofJobOptions os).isOk ↔ ∀ o ∈ os, o.meaning?.isSome := by
  rcases hos : ofJobOptions os with e | ts
  · have hnot : ¬ ∀ o ∈ os, o.meaning?.isSome := by
      intro hall
      rw [ofJobOptions_eq_ok_iff.mpr ⟨hall, rfl⟩] at hos
      cases hos
    simpa [Except.isOk, Except.toBool] using hnot
  · simpa [Except.isOk, Except.toBool] using (ofJobOptions_eq_ok_iff.mp hos).1

theorem isOk_singleton_iff {o : JobOption} :
    (ofJobOptions [o]).isOk ↔ o.meaning?.isSome := by
  rw [isOk_ofJobOptions_iff, List.forall_mem_singleton]

end JobOption

/-! ### Options in a list -/

/-- Whether two firings have the same at a target. -/
def Target.Agree : Target → QueuedTask × Option Nat → QueuedTask × Option Nat → Prop
  | queue, a, b => a.1.queue = b.1.queue
  | timeout, a, b => a.1.timeout = b.1.timeout
  | deadline, a, b => a.1.deadline = b.1.deadline
  | unique, a, b => a.2 = b.2
  | processTime, a, b => a.1.processAt = b.1.processAt
  | taskId, a, b => a.1.id = b.1.id
  | retention, a, b => a.1.retention = b.1.retention
  | group, a, b => a.1.group = b.1.group
  | maxRetry, a, b => a.1.maxRetry = b.1.maxRetry

/-- What is decided at a target depends on the option for it alone. -/
theorem Target.agree_decided {target : Target} {choice choice' : Target → Option TaskOption}
    (h : choice target = choice' target) (t : Task) (entry : Nat) (now : Time.Instant) :
    target.Agree (t.decided entry now choice) (t.decided entry now choice') := by
  cases target <;> simp only [Agree, Task.decided, h]

namespace JobOption

open TaskOption

/-- Whether other options are accepted as well and give the same tasks in all firings. -/
def Equivalent (os os' : List JobOption) : Prop :=
  ∀ ts, ofJobOptions os = .ok ts → ∃ ts', ofJobOptions os' = .ok ts' ∧
    ∀ (t : Task) (entry : Nat) (now : Time.Instant), t.fire entry ts now = t.fire entry ts' now

/-- How the options of a job take effect on the tasks of its firings.

* `refused`: a list is refused just if one of its options alone is, with the error of the first one.
* `decided`: the fields of the task are those that `Task.decided` names, with what the last option for
  each target means by its kind and its value, and nothing where no option has the target.
* `unwritten`: a target without an option keeps its default.
* `determined`: nothing else of the list matters.
* `superseded`: an option can be left out if a later one writes its target.
* `swapped`: options for different targets can change places. -/
structure LastCounts (os : List JobOption) : Prop where
  refused : ∀ e, ofJobOptions os = .error e ↔ ∃ before o after, os = before ++ o :: after ∧
    ofJobOptions [o] = .error e ∧ ∀ p ∈ before, (ofJobOptions [p]).isOk
  decided : ∀ ts, ofJobOptions os = .ok ts → ∃ choice : Target → Option TaskOption,
    (∀ target, Option.Rel Means (last? os target) (choice target)) ∧
      ∀ (t : Task) entry now, t.fire entry ts now = t.decided entry now choice
  unwritten : ∀ ts, ofJobOptions os = .ok ts → ∀ target, last? os target = none →
    ∀ (t : Task) entry now, target.Agree (t.fire entry ts now)
      ({ id := none, entry, name := t.name, payload := t.payload, queue := "default", maxRetry := 25
         timeout := none, deadline := none, processAt := now, retention := none, group := none
         enqueuedAt := now }, none)
  determined : ∀ os', (ofJobOptions os').isOk → (∀ target, last? os target = last? os' target) →
    Equivalent os os'
  superseded : ∀ before o after, os = before ++ o :: after → (∃ p ∈ after, p.target = o.target) →
    Equivalent os (before ++ after)
  swapped : ∀ before o p after, os = before ++ o :: p :: after → o.target ≠ p.target →
    Equivalent os (before ++ p :: o :: after)

theorem fire_eq_decided {os : List JobOption} {ts : List TaskOption}
    (h : ofJobOptions os = .ok ts) (t : Task) (entry : Nat) (now : Time.Instant) :
    t.fire entry ts now = t.decided entry now fun target => (last? os target).bind meaning? := by
  rw [Task.fire_eq_decided, last?_ofJobOptions h]

/-- Lists with the same last options give the same tasks. -/
theorem equivalent_of_last? {os os' : List JobOption} (hok : (ofJobOptions os').isOk)
    (hlast : ∀ target, last? os target = last? os' target) : Equivalent os os' := by
  intro ts hts
  have hts' := ofJobOptions_eq_ok_iff.mpr ⟨isOk_ofJobOptions_iff.mp hok, rfl⟩
  refine ⟨_, hts', ?_⟩
  intro t entry now
  rw [fire_eq_decided hts, fire_eq_decided hts']
  simp only [hlast]

theorem last?_append (os os' : List JobOption) (target : Target) :
    last? (os ++ os') target = (last? os' target).or (last? os target) := by
  rw [last?, List.filter_append, List.getLast?_append]
  rfl

theorem last?_isSome {os : List JobOption} {o : JobOption} (h : o ∈ os) :
    (last? os o.target).isSome := by
  have hmem : o ∈ os.filter fun p => p.target = o.target := List.mem_filter.mpr ⟨h, by simp⟩
  rw [last?, Option.isSome_iff_ne_none]
  exact fun hnone => List.ne_nil_of_mem hmem (List.getLast?_eq_none_iff.mp hnone)

theorem last?_cons_of_ne {o : JobOption} {target : Target} (h : o.target ≠ target)
    (os : List JobOption) : last? (o :: os) target = last? os target := by
  rw [last?, List.filter_cons_of_neg (by simpa using h)]
  rfl

/-- An option does not count if a later one has its target. -/
theorem last?_superseded {o : JobOption} {after : List JobOption}
    (h : ∃ p ∈ after, p.target = o.target) (before : List JobOption) (target : Target) :
    last? (before ++ o :: after) target = last? (before ++ after) target := by
  rw [last?_append, last?_append]
  by_cases htarget : o.target = target
  · -- the later one is the last of both lists, or another one behind it is
    obtain ⟨p, hp, hpo⟩ := h
    obtain ⟨r, hr⟩ := Option.isSome_iff_exists.mp (last?_isSome hp)
    rw [hpo, htarget] at hr
    have hafter : last? (o :: after) target = some r := by
      rw [← List.singleton_append, last?_append, hr]
      rfl
    rw [hafter, hr]
  · rw [last?_cons_of_ne htarget]

/-- The order of options for different targets does not count. -/
theorem last?_swapped {o p : JobOption} (h : o.target ≠ p.target) (before after : List JobOption)
    (target : Target) :
    last? (before ++ o :: p :: after) target = last? (before ++ p :: o :: after) target := by
  have hswap : ([o, p].filter fun q => q.target = target) =
      [p, o].filter fun q => q.target = target := by
    by_cases ho : o.target = target
    · have hp : ¬ p.target = target := fun hp => h (ho.trans hp.symm)
      simp [ho, hp]
    · simp [List.filter_cons, ho]
  have hlists : ∀ x y : JobOption, before ++ x :: y :: after = before ++ ([x, y] ++ after) :=
    fun x y => rfl
  simp only [hlists, last?, List.filter_append, hswap]

/-- Options of an accepted list are accepted in any order. -/
theorem isOk_of_subset {os os' : List JobOption} {ts : List TaskOption}
    (h : ofJobOptions os = .ok ts) (hsubset : os' ⊆ os) : (ofJobOptions os').isOk :=
  isOk_ofJobOptions_iff.mpr fun o ho => (ofJobOptions_eq_ok_iff.mp h).1 o (hsubset ho)

/-- Of a list of options only the last one for each target takes effect, and a list is refused just
if one of its options is. -/
theorem lastCounts (os : List JobOption) : LastCounts os := by
  constructor
  case refused =>
    intro e
    simp only [ofJobOptions_singleton_eq_error_iff, isOk_singleton_iff]
    exact ofJobOptions_eq_error_iff
  case decided =>
    intro ts hts
    refine ⟨fun target => (last? os target).bind meaning?, fun target => ?_, fire_eq_decided hts⟩
    dsimp only
    rcases hlast : last? os target with - | o
    · exact .none
    · -- every option of an accepted list has a meaning
      have ho : o ∈ os := (List.mem_filter.mp (List.mem_of_getLast? hlast)).1
      obtain ⟨t, ht⟩ := Option.isSome_iff_exists.mp ((ofJobOptions_eq_ok_iff.mp hts).1 o ho)
      rw [Option.bind_some, ht]
      exact .some (ofJobOption_eq_ok_iff.mp (meaning?_eq_some_iff.mp ht))
  case unwritten =>
    intro ts hts target hnone t entry now
    show target.Agree _ (t.decided entry now fun _ => none)
    rw [fire_eq_decided hts]
    exact Target.agree_decided (by simp [hnone]) t entry now
  case determined => exact fun os' hok hlast => equivalent_of_last? hok hlast
  -- without the option that was overridden, the last ones are the same
  case superseded =>
    rintro before o after rfl hlater ts hts
    have hsubset : before ++ after ⊆ before ++ o :: after := fun q hq => by
      simp only [List.mem_append, List.mem_cons] at hq ⊢
      tauto
    exact equivalent_of_last? (isOk_of_subset hts hsubset) (last?_superseded hlater before) ts hts
  -- options for different targets may change places
  case swapped =>
    rintro before o p after rfl hne ts hts
    have hsubset : before ++ p :: o :: after ⊆ before ++ o :: p :: after := fun q hq => by
      simp only [List.mem_append, List.mem_cons] at hq ⊢
      tauto
    exact equivalent_of_last? (isOk_of_subset hts hsubset) (last?_swapped hne before after) ts hts

/-- Options that write the process time, the queue and the retry budget more than once, by different
kinds. -/
def overriding : List JobOption :=
  [⟨"retries", .string " 5 "⟩, ⟨"process-at", .number (.whole 1767225600)⟩,
    ⟨"timeout", .number (.whole 30)⟩, ⟨"queue", .string "slow"⟩,
    ⟨"process-in", .number (.whole 60)⟩, ⟨"queue", .string "fast"⟩,
    ⟨"max-retry", .number (.whole 7)⟩]

/-- The later process time, queue and budget count, and the timeout is not touched by them. -/
theorem lastCounts_overriding :
    ∃ ts, ofJobOptions overriding = .ok ts ∧ ∀ (t : Task) entry now,
      t.fire entry ts now =
        ({ id := none, entry, name := t.name, payload := t.payload, queue := "fast", maxRetry := 7
           timeout := some 30, deadline := none, processAt := Task.after now 60, retention := none
           group := none, enqueuedAt := now }, none) := by
  have hok : (ofJobOptions overriding).isOk := by decide +kernel
  rcases hts : ofJobOptions overriding with e | ts
  · rw [hts] at hok
    cases hok
  obtain ⟨choice, hchoice, hfire⟩ := (lastCounts overriding).decided ts hts
  refine ⟨ts, rfl, fun t entry now => ?_⟩
  have hlast (target : Target) : choice target =
      [(Target.queue, TaskOption.queue "fast"), (.timeout, .timeout 30),
        (.processTime, .processIn 60), (.maxRetry, .maxRetry 7)].lookup target := by
    rw [eq_bind_of_rel (hchoice target)]
    cases target <;> decide +kernel
  rw [hfire, Task.decided]
  simp only [hlast]
  rfl

end JobOption

end Courier

import Courier.Proofs.Crontab.Locks
import Courier.Proofs.Json.Balance
import Courier.Proofs.Task.LastOption

/-!
The keys of unique tasks.

A key is queue, name and payload with colons between them (`uniqueKey`), and queues and names may
have colons of their own.  As long as payloads are JSON or empty (`QueuedTask.HasJson`) a key still
tells the payload, since nothing that ends in a colon and a JSON text is JSON itself
(`Json.not_isJson_colon`).  It does not tell where the queue ends and the name begins: what two
tasks with one key may differ in is a part that ends the queue of the one and begins the name of the
other (`uniqueKey_eq_iff`).  The payloads of jobs are JSON or empty, stamped or not
(`hasJson_fire_ofJob`).

A lock is the trace of a firing that took it (`Owned`).  A look keeps this whatever the clock does,
so every duplicate has an earlier firing that holds its key (`exists_holds_of_duplicate`).  That a
firing which holds a key makes later ones duplicates needs a clock that does not go back, and comes
from the locks of a run (`justified_of_getElem?`).

Main statement: a unique task is kept back only by a task with its payload whose queue and name are
its own up to such a part, and it is kept back by these, too (`Daemon.separated_of_json`).
-/

namespace Courier

open Time

/-! ### Payloads -/

/-- Whether the payload of a task is JSON, or the task has none. -/
def QueuedTask.HasJson (t : QueuedTask) : Prop := t.payload = "" ∨ Json.IsJson t.payload

instance (t : QueuedTask) : Decidable t.HasJson :=
  inferInstanceAs (Decidable (t.payload = "" ∨ Json.IsJson t.payload))

namespace Task

theorem numbers_stamp {P : Json.Number → Prop} {v : Json.Value} (h : v.Numbers P) (id : String) :
    (stamp id v).Numbers P := by
  cases h with
  | @object ms h =>
    rw [stamp]
    split
    · refine .object fun m hm => ?_
      rcases Json.Members.mem_of_mem_insert hm with rfl | hm
      · exact .string id
      · exact h m hm
    · exact .object h
  | array h => exact .array h
  | null => exact .null
  | bool b => exact .bool b
  | number h => exact .number h
  | string s => exact .string s

/-- What a job queues has a JSON payload. -/
theorem hasJson_fire_ofJob {j : Job} (h : ∀ v, j.payload = some v → v.Numbers Json.Number.Legible)
    (entry : ℕ) (options : List TaskOption) (now : Instant) :
    ((ofJob j).fire entry options now).1.HasJson := by
  rw [QueuedTask.HasJson, payload_fire]
  unfold ofJob
  rcases hpayload : j.payload with - | v
  · exact .inl rfl
  · exact .inr (Json.isJson_text (numbers_stamp (h v hpayload) j.id))

end Task

namespace Crontab

/-! ### Keys -/

theorem append_cons_eq_append_cons {α : Type} {x : α} {as bs cs ds : List α} :
    as ++ x :: bs = cs ++ x :: ds ↔ as = cs ∧ bs = ds ∨
      (∃ rs, cs = as ++ x :: rs ∧ bs = rs ++ x :: ds) ∨
        ∃ rs, as = cs ++ x :: rs ∧ ds = rs ++ x :: bs := by
  rw [List.append_eq_append_iff]
  constructor
  · rintro (⟨rs, rfl, h⟩ | ⟨rs, rfl, h⟩)
    · rcases List.cons_eq_append_iff.mp h with ⟨rfl, h⟩ | ⟨rs', rfl, h⟩
      · exact .inl ⟨by simp, (List.cons.inj h).2⟩
      · exact .inr (.inl ⟨rs', rfl, (List.cons.inj h).2⟩)
    · rcases List.cons_eq_append_iff.mp h with ⟨rfl, h⟩ | ⟨rs', rfl, h⟩
      · exact .inl ⟨by simp, (List.cons.inj h).2.symm⟩
      · exact .inr (.inr ⟨rs', rfl, (List.cons.inj h).2⟩)
  · rintro (⟨rfl, rfl⟩ | ⟨rs, rfl, rfl⟩ | ⟨rs, rfl, rfl⟩)
    · exact .inl ⟨[], by simp, rfl⟩
    · exact .inl ⟨x :: rs, rfl, by simp⟩
    · exact .inr ⟨x :: rs, rfl, by simp⟩

/-- Two texts with colons in them are equal just if they are in parts, at these colons or with one
colon inside a part of the other. -/
theorem append_colon_eq_iff {a b c d : String} :
    a ++ ":" ++ b = c ++ ":" ++ d ↔ a = c ∧ b = d ∨ (∃ r, c = a ++ ":" ++ r ∧ b = r ++ ":" ++ d) ∨
      ∃ r, a = c ++ ":" ++ r ∧ d = r ++ ":" ++ b := by
  have hlist (s t : String) : (s ++ ":" ++ t).toList = s.toList ++ ':' :: t.toList := by
    simp [String.toList_append]
  have hexists (p : List Char → Prop) : (∃ rs, p rs) ↔ ∃ r : String, p r.toList := by
    constructor
    · rintro ⟨rs, h⟩
      exact ⟨String.ofList rs, by rwa [String.toList_ofList]⟩
    · rintro ⟨r, h⟩
      exact ⟨r.toList, h⟩
  simp only [← String.toList_inj, hlist, append_cons_eq_append_cons, hexists]

/-- Whether a part that ends the queue of `y`, with a colon before it, begins the name of `x`, with a
colon behind it, the rest being the same. -/
def Shifted (x y : QueuedTask) : Prop :=
  ∃ part, y.queue = x.queue ++ ":" ++ part ∧ x.name = part ++ ":" ++ y.name

/-- Whether two tasks have one payload and a queue and a name that joined are one text. -/
structure Alike (x y : QueuedTask) : Prop where
  payload : x.payload = y.payload
  address : x.queue = y.queue ∧ x.name = y.name ∨ Shifted x y ∨ Shifted y x

/-- Two tasks with JSON payloads have one key just if they are alike. -/
theorem uniqueKey_eq_iff {x y : QueuedTask} (hx : x.HasJson) (hy : y.HasJson) :
    uniqueKey x = uniqueKey y ↔ Alike x y := by
  -- split at other colons, one payload would end in a colon and the other one
  have hpayload {s t r : String} (hs : s = "" ∨ Json.IsJson s) (ht : t = "" ∨ Json.IsJson t) :
      s ≠ r ++ ":" ++ t := by
    rintro rfl
    rcases hs with hs | hs
    · have hlength := congrArg String.length hs
      simp [String.length_append] at hlength
    · exact Json.not_isJson_colon ht hs
  rw [uniqueKey, uniqueKey, append_colon_eq_iff]
  constructor
  · rintro (⟨haddress, h⟩ | ⟨r, -, h⟩ | ⟨r, -, h⟩)
    · exact ⟨h, append_colon_eq_iff.mp haddress⟩
    · exact absurd h (hpayload hx hy)
    · exact absurd h (hpayload hy hx)
  · rintro ⟨h, haddress⟩
    exact .inl ⟨append_colon_eq_iff.mpr haddress, h⟩

/-! ### Locks and the firings that took them -/

/-- Whether every lock was taken by a firing of the history. -/
def Owned (log : List Firing) (locks : List (String × Instant)) : Prop :=
  ∀ key expiry, (key, expiry) ∈ locks → ∃ f ∈ log, f.fate ≠ .duplicate ∧ uniqueKey f.task = key ∧
    ∃ seconds, f.unique = some seconds ∧ expiry = Task.after f.time seconds

theorem Owned.mono {log log' : List Firing} {locks locks' : List (String × Instant)}
    (h : Owned log locks) (hlog : log ⊆ log') (hlocks : locks' ⊆ locks) : Owned log' locks' := by
  intro key expiry hmem
  obtain ⟨f, hf, hrest⟩ := h key expiry (hlocks hmem)
  exact ⟨f, hlog hf, hrest⟩

/-- A key that is locked is held by a firing of the history. -/
theorem Owned.exists_holds {log : List Firing} {locks : List (String × Instant)}
    (h : Owned log locks) {key : String} {now : Instant} (hlocked : Locked locks key now) :
    ∃ g ∈ log, g.Holds key now := by
  obtain ⟨expiry, hmem, hlt⟩ := hlocked
  obtain ⟨g, hg, hfate, hkey, seconds, hseconds, rfl⟩ := h key expiry hmem
  exact ⟨g, hg, hfate, hkey, seconds, hseconds, hlt⟩

/-- One firing takes at most the lock of its own key, and it is a duplicate only if the history
holds this key. -/
theorem Owned.resolve {log : List Firing} {locks : List (String × Instant)} (h : Owned log locks)
    (now : Instant) (channel : Channel) (fired : QueuedTask × Option ℕ) :
    Owned (log ++ [⟨fired.1, fired.2, now, (resolve now locks channel fired).1⟩])
        (Crontab.resolve now locks channel fired).2.1 ∧
      ((Crontab.resolve now locks channel fired).1 = .duplicate →
        ∃ g ∈ log, g.Holds (uniqueKey fired.1) now) := by
  have hkept : holding locks now ⊆ locks := List.filter_subset_self _
  have hstep := lockStep_resolve now locks channel fired
  rcases hresolve : Crontab.resolve now locks channel fired with ⟨fate, locks', channel'⟩
  rw [hresolve] at hstep
  -- a lock that stays has its firing, and a new one has the firing at hand
  cases hstep with
  | common _ hfate =>
    exact ⟨h.mono (List.subset_append_left _ _) (List.Subset.refl _), fun hdup => absurd hdup hfate⟩
  | held _ hlocked =>
    exact ⟨h.mono (List.subset_append_left _ _) hkept, fun _ => h.exists_holds hlocked⟩
  | @taken seconds _ hunique _ hfate =>
    refine ⟨fun key expiry hmem => ?_, fun hdup => absurd hdup hfate⟩
    rcases List.mem_cons.mp hmem with hnew | hold
    · obtain ⟨rfl, rfl⟩ := Prod.mk.inj hnew
      exact ⟨_, List.mem_append_right _ (List.mem_singleton_self _), hfate, rfl, seconds, hunique,
        rfl⟩
    · exact h.mono (List.subset_append_left _ _) hkept key expiry hold

/-- So it is in a look. -/
theorem Owned.fireAmid {now : Instant} (fired : List (QueuedTask × Option ℕ)) :
    ∀ (meanwhile : ℕ → Channel → Channel) (channel : Channel) {log : List Firing}
      {locks : List (String × Instant)}, Owned log locks →
        Owned (log ++ (fireAmid now meanwhile fired locks channel).1)
            (Crontab.fireAmid now meanwhile fired locks channel).2.1 ∧
          ∀ before f after, (Crontab.fireAmid now meanwhile fired locks channel).1 =
            before ++ f :: after → f.fate = .duplicate →
              ∃ g ∈ log ++ before, g.Holds (uniqueKey f.task) f.time := by
  induction fired with
  | nil => exact fun _ _ _ _ h => ⟨by simpa [Crontab.fireAmid] using h, by simp [Crontab.fireAmid]⟩
  | cons x rest ih =>
    intro meanwhile channel log locks h
    obtain ⟨howned, hholds⟩ := h.resolve now (meanwhile 0 channel) x
    rcases hresolve : Crontab.resolve now locks (meanwhile 0 channel) x with ⟨fate, locks', channel'⟩
    rw [hresolve] at howned hholds
    obtain ⟨hrest, hall⟩ := ih (fun n => meanwhile (n + 1)) channel' howned
    simp only [Crontab.fireAmid, hresolve]
    refine ⟨by simpa using hrest, fun before f after hsplit hdup => ?_⟩
    -- the duplicate is the first firing, or one of the others
    rcases List.cons_eq_append_iff.mp hsplit with ⟨rfl, hsplit⟩ | ⟨before, rfl, hsplit⟩
    · obtain ⟨rfl, -⟩ := List.cons.inj hsplit
      simpa using hholds hdup
    · simpa using hall before f after (List.cons.inj hsplit).2 hdup

namespace Daemon

/-- So it is in a run, whatever its clock does. -/
theorem exists_holds_of_split (events : List Event) :
    ∀ {d : Daemon} {log : List Firing}, Owned log d.crontab.locks →
      ∀ before f after, d.log events = before ++ f :: after → f.fate = .duplicate →
        ∃ g ∈ log ++ before, g.Holds (uniqueKey f.task) f.time := by
  induction events with
  | nil => simp [Daemon.log]
  | cons e events ih =>
    intro d log h before f after hsplit hdup
    rw [Daemon.log] at hsplit
    rcases htime : e.time? with - | now
    · obtain ⟨hnone, hlocks⟩ := locks_step_of_time? (d := d) htime
      rw [hnone, List.nil_append] at hsplit
      exact ih (hlocks.symm ▸ h) before f after hsplit hdup
    · obtain ⟨l, rfl, rfl⟩ := Event.eq_look_of_time? htime
      have howned : Owned (log ++ (d.step (.look l)).1) (d.step (.look l)).2.crontab.locks :=
        (h.fireAmid (l.order (d.crontab.due l.time)) l.meanwhile d.channel).1
      -- the firing is one of this look or a later one
      rcases List.append_eq_append_iff.mp hsplit with ⟨before', rfl, hlater⟩ | ⟨rest, hfirst, hrest⟩
      · simpa using ih howned before' f after hlater hdup
      · rcases List.cons_eq_append_iff.mp hrest with ⟨rfl, hlater⟩ | ⟨rest', rfl, -⟩
        · rw [List.append_nil] at hfirst
          simpa [← hfirst] using ih howned [] f after hlater hdup
        · exact (h.fireAmid _ l.meanwhile d.channel).2 before f rest' hfirst hdup

/-- A duplicate has an earlier firing that holds its key. -/
theorem exists_holds_of_duplicate {d : Daemon} (hd : d.crontab.locks = []) {events : List Event}
    {i : ℕ} {f : Firing} (hf : (d.log events)[i]? = some f) (hdup : f.fate = .duplicate) :
    ∃ j < i, ∃ g, (d.log events)[j]? = some g ∧ g.Holds (uniqueKey f.task) f.time := by
  obtain ⟨hi, rfl⟩ := List.getElem?_eq_some_iff.mp hf
  have howned : Owned [] d.crontab.locks := by simp [Owned, hd]
  obtain ⟨g, hg, hholds⟩ := exists_holds_of_split events howned ((d.log events).take i) _
    ((d.log events).drop (i + 1)) (by rw [← List.drop_eq_getElem_cons hi, List.take_append_drop]) hdup
  obtain ⟨j, hj, rfl⟩ := List.mem_take_iff_getElem.mp (by simpa using hg)
  obtain ⟨hji, hlen⟩ := Nat.lt_min.mp hj
  exact ⟨j, hji, _, List.getElem?_eq_getElem hlen, hholds⟩

/-! ### Separate tasks -/

/-- Whether a firing is alike to another one and still holds its key. -/
def Bars (g f : Firing) : Prop :=
  g.fate ≠ .duplicate ∧ Alike g.task f.task ∧
    ∃ seconds, g.unique = some seconds ∧ f.time < Task.after g.time seconds

/-- How far the tasks of a run are kept separate.

* `key`: a key tells the payload, and the queue and the name joined.
* `barred`: a duplicate is barred by an earlier firing.
* `duplicate`: under a clock that does not go back, a unique task that is barred is a duplicate. -/
structure Separated (d : Daemon) (events : List Event) : Prop where
  key : ∀ x y : QueuedTask, x.HasJson → y.HasJson → (uniqueKey x = uniqueKey y ↔ Alike x y)
  barred : ∀ (i : ℕ) (f : Firing), (d.log events)[i]? = some f → f.fate = .duplicate →
    ∃ j < i, ∃ g, (d.log events)[j]? = some g ∧ Bars g f
  duplicate : (events.filterMap Event.time?).Pairwise (· ≤ ·) → ∀ (i j : ℕ) (f g : Firing),
    j < i → (d.log events)[i]? = some f → f.unique ≠ none → (d.log events)[j]? = some g →
      Bars g f → f.fate = .duplicate

/-- In a run whose payloads are JSON or empty, a unique task is kept back by an earlier one that has
its payload, and its queue and name up to a colon inside of them. -/
theorem separated_of_json {d : Daemon} (hd : d.crontab.locks = []) {events : List Event}
    (hjson : ∀ f ∈ d.log events, f.task.HasJson) : Separated d events where
  key _ _ := uniqueKey_eq_iff
  barred := by
    intro i f hf hdup
    -- a duplicate has a firing that holds its key, and with JSON payloads one key means alike
    obtain ⟨j, hj, g, hg, hfate, hkey, hseconds⟩ := exists_holds_of_duplicate hd hf hdup
    have halike := (uniqueKey_eq_iff (hjson g (List.mem_of_getElem? hg))
      (hjson f (List.mem_of_getElem? hf))).mp hkey
    exact ⟨j, hj, g, hg, hfate, halike, hseconds⟩
  duplicate := by
    -- two that are alike have one key, which under this clock the earlier one still holds
    intro hsorted i j f g hj hf hunique hg hbars
    obtain ⟨hfate, halike, hseconds⟩ := hbars
    have hkey := (uniqueKey_eq_iff (hjson g (List.mem_of_getElem? hg))
      (hjson f (List.mem_of_getElem? hf))).mpr halike
    obtain ⟨hi, rfl⟩ := List.getElem?_eq_some_iff.mp hf
    obtain ⟨hlen, rfl⟩ := List.getElem?_eq_some_iff.mp hg
    exact (justified_of_getElem? hd hsorted hf hunique).mpr
      ⟨_, List.mem_take_iff_getElem.mpr ⟨j, Nat.lt_min.mpr ⟨hj, hlen⟩, rfl⟩, hfate, hkey, hseconds⟩

/-- Two tasks with one payload that have neither the queue nor the name in common, and one key. -/
def moved : List Event :=
  [.register ⟨0, 0⟩ "* * * * *" ⟨"a:mail", "\x7b\x7d"⟩ [.queue "q", .unique 3600],
    .look { time := ⟨60, 0⟩ }, .unregister 0,
    .register ⟨0, 0⟩ "* * * * *" ⟨"mail", "\x7b\x7d"⟩ [.queue "q:a", .unique 3600],
    .look { time := ⟨60, 0⟩ }]

theorem separated_of_json_moved :
    let d : Daemon := { channel := ⟨64, [], true, false⟩ }
    d.crontab.locks = [] ∧ (∀ f ∈ d.log moved, f.task.HasJson) ∧
      (d.log moved).map (fun f => (f.task.queue, f.task.name, f.fate)) =
        [("q", "a:mail", .sent), ("q:a", "mail", .duplicate)] ∧ Separated d moved := by
  intro d
  have hjson : ∀ f ∈ d.log moved, f.task.HasJson := by decide +kernel
  exact ⟨rfl, hjson, by decide +kernel, separated_of_json rfl hjson⟩

end Daemon

end Crontab

end Courier

import Courier.Command.Jobs
import Courier.Proofs.Catalog.Refinement
import Courier.Proofs.Json.Reread
import Courier.Proofs.Scheduling.Firing

/-!
From the command line to the crontab.

A job that the command line accepts has passed two readers: that of its schedule and that of its
options (`Jobs.Accepted`).  It is then written into a row of the catalog, read back from it and
offered to the crontab, which reads schedule and options again, but also asks whether the schedule
comes up again.

What is lost on the way is known.  A payload that is null is read back as none, so the job that is
read back is the one that was written with perhaps another payload (`Accepted.job_ofJob`).  Options
are written with values that texts stand for, and such values are read back as they are
(`Accepted.storable`).  A timestamp outside of the years 0 to 9999 cannot be read back, and spoils
the whole catalog (`Accepted.isOk_job_iff`).

The pass is one of any scheduler that was run with jobs of different ids, so its table and its
crontab belong together, and what it does with one new job is known from there
(`Sound.lookup_sync_of_new`, `Sound.report_sync_of_new`).

Main statement: after the next pass a new job is registered just if its schedule comes up again; if
it does not, the pass counts it as failed (`enrolled_of_build`).
-/

namespace Courier.Command.Jobs

open Time Catalog

/-! ### What is accepted -/

/-- What the command line has checked of a job. -/
structure Accepted (j : Job) : Prop where
  schedule : ∃ schedule, Cron.Schedule.parse j.cron = .ok schedule
  payload : ∀ v, j.payload = some v → ∃ t, Json.parse t = .ok v
  options : ∀ o ∈ j.options, ∃ t, JobOption.parse t = .ok o
  meaning : ∃ options, TaskOption.ofJobOptions j.options = .ok options

/-- What is read from a list of texts is read from one of them. -/
theorem exists_of_mapM {α β ε : Type} {f : α → Except ε β} {xs : List α} {ys : List β}
    (h : xs.mapM f = .ok ys) : ∀ y ∈ ys, ∃ x ∈ xs, f x = .ok y := by
  induction xs generalizing ys with
  | nil =>
    cases h
    simp
  | cons x xs ih =>
    rw [List.mapM_cons] at h
    obtain ⟨y, hy, h⟩ := Json.bind_eq_ok.mp h
    obtain ⟨rest, hrest, h⟩ := Json.bind_eq_ok.mp h
    cases h
    refine List.forall_mem_cons.mpr ⟨⟨x, List.mem_cons_self, hy⟩, fun z hz => ?_⟩
    obtain ⟨x', hx', hz'⟩ := ih hrest z hz
    exact ⟨x', List.mem_cons_of_mem _ hx', hz'⟩

variable {id name cron : String} {payload : Option String} {options : List String} {now : Instant}
  {j : Job}

/-- A payload that can be read is all that it adds to the job. -/
theorem build_some {t : String} {v : Json.Value} (hparse : Json.parse t = .ok v) (enabled : Bool) :
    build id name cron (some t) options enabled now =
      (build id name cron none options enabled now).map fun j => { j with payload := some v } := by
  simp only [build, hparse]
  rcases Cron.Schedule.parse cron with e | schedule
  · rfl
  · rcases options.mapM fun t => (JobOption.parse t).mapError JobsError.optionSyntax with e | os
    · rfl
    · rcases hmeaning : TaskOption.ofJobOptions os with e | ts
      · simp only [Json.ok_bind, hmeaning]
        rfl
      · simp only [Json.ok_bind, hmeaning]
        rfl

theorem accepted_of_build_none {enabled : Bool}
    (h : build id name cron none options enabled now = .ok j) :
    Accepted j ∧ j.id = id ∧ j.cron = cron ∧ j.enabled = enabled ∧ j.updatedAt = now := by
  unfold build at h
  -- schedule, options and their meaning are read one after the other, and all have to be accepted
  rcases hschedule : Cron.Schedule.parse cron with e | schedule
  · rw [hschedule] at h
    cases h
  rw [hschedule] at h
  obtain ⟨v, hv, h⟩ := Json.bind_eq_ok.mp h
  cases hv
  obtain ⟨os, hos, h⟩ := Json.bind_eq_ok.mp h
  rcases hmeaning : TaskOption.ofJobOptions os with e | ts
  · rw [hmeaning] at h
    cases h
  · rw [hmeaning] at h
    cases h
    refine ⟨⟨⟨schedule, hschedule⟩, by simp, ?_, ⟨ts, hmeaning⟩⟩, rfl, rfl, rfl, rfl⟩
    intro o ho
    obtain ⟨t, -, ht⟩ := exists_of_mapM hos o ho
    rcases hparse : JobOption.parse t with e | o'
    · rw [hparse] at ht
      cases ht
    · rw [hparse] at ht
      cases ht
      exact ⟨t, hparse⟩

theorem accepted_of_build {enabled : Bool}
    (h : build id name cron payload options enabled now = .ok j) :
    Accepted j ∧ j.id = id ∧ j.cron = cron ∧ j.enabled = enabled ∧ j.updatedAt = now := by
  rcases payload with - | t
  · exact accepted_of_build_none h
  rcases hparse : Json.parse t with e | v
  · simp only [build, hparse] at h
    rcases hschedule : Cron.Schedule.parse cron with e | schedule
    · rw [hschedule] at h
      cases h
    · rw [hschedule] at h
      cases h
  · rw [build_some hparse] at h
    obtain ⟨j', hj', rfl⟩ := Json.map_eq_ok.mp h
    obtain ⟨haccepted, hfields⟩ := accepted_of_build_none hj'
    refine ⟨{ haccepted with payload := ?_ }, hfields⟩
    intro w hw
    cases hw
    exact ⟨t, hparse⟩

/-! ### The row of the job -/

/-- Whether a value has no parts and is no double. -/
def Plain (v : Json.Value) : Prop := (∃ s, v = .string s) ∨ ∃ n, v = .number (.whole n)

theorem plain_of_textValue {v : Json.Value} {s : String} (h : TaskOption.textValue v = .ok s) :
    Plain v := by
  unfold TaskOption.textValue at h
  split at h
  · exact .inl ⟨_, rfl⟩
  · cases h

theorem plain_of_countValue {v : Json.Value} {n : Nat} (h : TaskOption.countValue v = .ok n) :
    Plain v := by
  unfold TaskOption.countValue at h
  split at h
  · exact .inr ⟨_, rfl⟩
  · exact .inl ⟨_, rfl⟩
  · cases h

theorem plain_of_timestampValue {v : Json.Value} {a : Instant}
    (h : TaskOption.timestampValue v = .ok a) : Plain v := by
  unfold TaskOption.timestampValue at h
  split at h
  · exact .inl ⟨_, rfl⟩
  · exact .inr ⟨_, rfl⟩
  · cases h
  · cases h

theorem plain_of_retryValue {v : Json.Value} {n : Nat} (h : TaskOption.retryValue v = .ok n) :
    Plain v := by
  unfold TaskOption.retryValue at h
  split at h
  · rename_i hcount
    exact plain_of_countValue hcount
  · cases h

/-- Whatever its kind, an option says something only with a plain value. -/
theorem plain_of_read {kind : String} {v : Json.Value} {t : TaskOption}
    (h : TaskOption.read kind v = .ok t) : Plain v := by
  unfold TaskOption.read at h
  -- one of four readers, whichever the kind is
  split_ifs at h
  all_goals
    obtain ⟨_, h, -⟩ := Json.map_eq_ok.mp h
    first
      | exact plain_of_textValue h
      | exact plain_of_countValue h
      | exact plain_of_timestampValue h
      | exact plain_of_retryValue h

theorem plain_of_ofJobOptions {os : List JobOption} {ts : List TaskOption}
    (h : TaskOption.ofJobOptions os = .ok ts) : ∀ o ∈ os, Plain o.value := by
  induction os generalizing ts with
  | nil => simp
  | cons o os ih =>
    unfold TaskOption.ofJobOptions at h
    split at h
    · cases h
    · rename_i t ho
      split at h
      · cases h
      · rename_i hos
        refine List.forall_mem_cons.mpr ⟨?_, ih hos⟩
        unfold TaskOption.ofJobOption at ho
        split at ho
        · rename_i hread
          exact plain_of_read hread
        · cases ho

theorem value_of_parse {t : String} {o : JobOption} (h : JobOption.parse t = .ok o) :
    ∃ raw, o.value = JobOption.looseValue raw := by
  unfold JobOption.parse at h
  split at h
  · cases h
  · simp only at h
    split at h
    · cases h
    · cases h
      exact ⟨_, rfl⟩

/-- A whole number that has been read fits in 64 bits. -/
theorem isExact_of_looseValue {raw : String} {n : Int}
    (h : JobOption.looseValue raw = .number (.whole n)) : Json.isExact n = true := by
  unfold JobOption.looseValue at h
  split at h
  · rename_i v hparse
    subst h
    rcases (Json.readable_of_parse hparse).numbers with _ | _ | hsound
    exact hsound
  · cases h

namespace Accepted

/-- The options of the job are read back from their texts. -/
theorem storable (h : Accepted j) : ∀ o ∈ j.options, o.value.Faithful ∧ o.value.depth ≤ 125 := by
  intro o ho
  obtain ⟨ts, hmeaning⟩ := h.meaning
  obtain ⟨t, ht⟩ := h.options o ho
  obtain ⟨raw, hraw⟩ := value_of_parse ht
  -- a double would be read back only almost, but no option takes one
  rcases plain_of_ofJobOptions hmeaning o ho with ⟨s, hs⟩ | ⟨n, hn⟩
  · rw [hs]
    exact ⟨trivial, Nat.zero_le _⟩
  · rw [hn]
    exact ⟨isExact_of_looseValue (hraw.symm.trans hn), Nat.zero_le _⟩

/-- Some payload is read back from the text of the payload. -/
theorem readPayload (h : Accepted j) :
    ∃ payload, Row.readPayload (j.payload.map Json.Value.text) = .ok payload := by
  rcases hj : j.payload with - | v
  · exact ⟨none, rfl⟩
  · obtain ⟨t, ht⟩ := h.payload v hj
    obtain ⟨w, hw⟩ := Json.exists_parse_text ht
    exact ⟨some w, by simp only [Option.map_some, Row.readPayload, hw]⟩

/-- But for the payload, the job is read back from its row. -/
theorem job_ofJob (h : Accepted j) (hupdated : j.updatedAt.Storable) :
    ∃ payload, (Row.ofJob j).job = .ok { j with payload } := by
  obtain ⟨payload, hpayload⟩ := h.readPayload
  exact ⟨payload, Row.job_ofJob_of_payload hpayload h.storable hupdated⟩

/-- The row can be read just if its timestamp can. -/
theorem isOk_job_iff (h : Accepted j) (hproper : j.updatedAt.Proper) :
    (Row.ofJob j).job.isOk ↔ j.updatedAt.Storable := by
  constructor
  · -- payload and options do not matter here: years of other than four digits are not read
    intro hok
    rcases hjob : (Row.ofJob j).job with e | i
    · rw [hjob] at hok
      cases hok
    · obtain ⟨-, -, -, -, -, htime⟩ := Row.of_job hjob
      refine ⟨hproper, ?_⟩
      unfold Row.readTime at htime
      split at htime
      · rename_i hread
        exact Timestamp.year_of_strict?_stored hread
      · cases htime
  · intro hupdated
    obtain ⟨payload, hjob⟩ := h.job_ofJob hupdated
    rw [hjob]
    rfl

theorem blank_cron (h : Accepted j) : Text.blank j.cron = false := by
  obtain ⟨schedule, hschedule⟩ := h.schedule
  by_contra hblank
  rw [Cron.Schedule.parse_of_blank (by simpa using hblank)] at hschedule
  cases hschedule

end Accepted

/-! ### The next pass -/

/-- After a job has been saved, the enabled rows are its own and those of other ids. -/
theorem forall_enabled_save {c c' : Catalog} (hc : c.Distinct) (hsave : c.save j = .ok c')
    (henabled : j.enabled = true) {Q : Result Job → Prop} :
    (∀ item ∈ c'.enabled, Q item) ↔ Q (Row.ofJob j).job ∧
      ∀ r, c.row? r.id = some r → r.id ≠ j.id → r.enabled = 1 → Q r.job := by
  have hmem : ∀ item, item ∈ c'.enabled ↔
      ∃ r, c'.row? r.id = some r ∧ r.enabled = 1 ∧ r.job = item :=
    fun _ => mem_enabled (distinct_save hc hsave) (isSome_save hsave)
  -- the row of the job itself, and a row of another id
  constructor
  · intro h
    refine ⟨?_, ?_⟩
    · refine h _ ((hmem _).mpr ⟨Row.ofJob j, ?_, ?_, rfl⟩)
      · rw [row?_save hsave]
        exact if_pos rfl
      · simp [Row.ofJob, henabled]
    · intro r hr hne hon
      refine h _ ((hmem _).mpr ⟨r, ?_, hon, rfl⟩)
      rw [row?_save hsave, if_neg (Ne.symm hne)]
      exact hr
  · rintro ⟨hj, hothers⟩ item hitem
    obtain ⟨r, hr, hon, rfl⟩ := (hmem item).mp hitem
    -- a row of the new catalog is that of the job or was there before
    rw [row?_save hsave] at hr
    split at hr
    · cases hr
      exact hj
    · rename_i hne
      exact hothers r hr (Ne.symm hne) hon

open Scheduler

/-- What the next pass makes of a job that has been saved.

* `read`: the catalog can be read just if the job's own timestamp and all other rows can.
* `registration`: its registration is that of this version, and it has one just if the crontab takes
  it.
* `report`: it counts as added or as failed, and never as skipped. -/
structure Enrolled (c c' : Catalog) (s : Scheduler Crontab.Daemon) (now : Instant) (j : Job) :
    Prop where
  read : ∀ start timeout,
    ((JobSource.feed c').read start timeout).2 = .ok (JobSource.feed c').jobs ↔
      now.Storable ∧ ∀ r, c.row? r.id = some r → r.id ≠ j.id → r.enabled = 1 → r.job.isOk
  registration : now.Storable →
    ((s.sync now (JobSource.feed c').jobs).2.table.lookup j.id).map Registration.updatedAt =
      if Crontab.accepts now j.cron then some j.updatedAt else none
  report : now.Storable →
    let others := (s.sync now ((JobSource.feed c').jobs.filter fun i => i.id ≠ j.id)).1
    (s.sync now (JobSource.feed c').jobs).1 =
      if Crontab.accepts now j.cron then { others with added := others.added + 1 }
      else { others with failedAdds := others.failedAdds + 1 }

theorem enrolled_of_sound {c c' : Catalog} {P : Job → Prop} {s : Scheduler Crontab.Daemon}
    (hj : Accepted j) (henabled : j.enabled = true) (hproper : j.updatedAt.Proper)
    (hc : c.Distinct) (hsave : c.save j = .ok c') (hs : Sound P s.traced)
    (hnew : s.table.lookup j.id = none) : Enrolled c c' s j.updatedAt j := by
  have hall : Sound (fun _ => True) s.traced := hs.mono fun _ _ => trivial
  have hids := Feed.nodup_ids_catalog (distinct_save hc hsave)
  -- the job that is read is the one that was saved, with perhaps another payload
  have hmem : j.updatedAt.Storable → ∃ payload, { j with payload } ∈ (JobSource.feed c').jobs := by
    intro hupdated
    obtain ⟨payload, hjob⟩ := hj.job_ofJob hupdated
    refine ⟨payload, Feed.mem_jobs_catalog.mpr ?_⟩
    rw [← hjob, mem_enabled (distinct_save hc hsave) (isSome_save hsave)]
    refine ⟨Row.ofJob j, ?_, by simp [Row.ofJob, henabled], rfl⟩
    rw [row?_save hsave]
    exact if_pos rfl
  obtain ⟨ts, hmeaning⟩ := hj.meaning
  have htakes : ∀ payload, takes j.updatedAt { j with payload } =
      Crontab.accepts j.updatedAt j.cron :=
    fun payload => takes_eq_accepts (j := { j with payload }) hmeaning j.updatedAt
  -- the three parts of what the next pass makes of it
  constructor
  case read =>
    intro start timeout
    rw [Feed.read_catalog_iff, forall_enabled_save hc hsave henabled, hj.isOk_job_iff hproper]
  case registration =>
    intro hupdated
    obtain ⟨payload, hread⟩ := hmem hupdated
    have hlookup := hall.lookup_sync_of_new j.updatedAt (fun _ _ => trivial) hids hread hnew
    rw [htakes] at hlookup
    exact hlookup
  case report =>
    intro hupdated
    obtain ⟨payload, hread⟩ := hmem hupdated
    have hreport := hall.report_sync_of_new j.updatedAt (fun _ _ => trivial) hids hread hnew
    simp only [htakes, hj.blank_cron] at hreport
    rw [hreport]
    cases Crontab.accepts j.updatedAt j.cron <;> rfl

/-- A job that the command line accepts and saves is registered by the next pass just if its
schedule comes up again. -/
theorem enrolled_of_build (hbuild : build id name cron payload options true now = .ok j)
    (hnow : now.Proper) {c c' : Catalog} (hc : c.Distinct) (hsave : c.save j = .ok c')
    (channel : Channel) (period : Nat) {acts : List Act}
    (hacts : ∀ act ∈ acts, act.Distinct)
    (hnew : ((fresh channel period).run acts).table.lookup id = none) :
    Enrolled c c' ((fresh channel period).run acts) now j := by
  obtain ⟨hj, rfl, -, henabled, rfl⟩ := accepted_of_build hbuild
  have hsound := (Sound.fresh (fun _ => True) channel period).run_traced
    (fun act _ j _ => trivial) hacts
  exact enrolled_of_sound hj henabled hnow hc hsave hsound hnew

theorem save_empty (j : Job) : Catalog.save .empty j = .ok ⟨some [Row.ofJob j]⟩ := rfl

/-- The first second of a year. -/
def newYear : Instant := ⟨1767225600, 0⟩

/-- A job for every morning. -/
def daily : Job :=
  { Job.new "daily" "report" "0 9 * * *" newYear with
    payload := some (.array [.number (.whole 1), .bool true])
    options := [⟨"queue", .string "mail"⟩, ⟨"timeout", .number (.whole 30)⟩] }

/-- A job for the mornings of the year that is over. -/
def late : Job := .new "late" "report" "0 0 9 * * * 2025" newYear

/-- A daemon is started, and another job is registered. -/
def morning : List Act := [.start 0, .add ⟨0, 0⟩ (.new "old" "mail" "0 0 * * *" ⟨0, 0⟩)]

theorem enrolled_of_build_daily_late :
    build "daily" "report" "0 9 * * *" (some "[1, true]") ["queue=mail", "timeout=30"] true
        newYear = .ok daily ∧
      build "late" "report" "0 0 9 * * * 2025" none [] true newYear = .ok late ∧
      (∀ act ∈ morning, act.Distinct) ∧
      Enrolled .empty ⟨some [Row.ofJob daily]⟩ ((fresh ⟨16, [], true, false⟩ 1000).run morning)
        newYear daily ∧
      Enrolled .empty ⟨some [Row.ofJob late]⟩ ((fresh ⟨16, [], true, false⟩ 1000).run morning)
        newYear late ∧
      newYear.Storable ∧ Crontab.accepts newYear daily.cron = true ∧
      Crontab.accepts newYear late.cron = false := by
  -- two jobs from the command line, of which the second has no occurrence left
  have hdaily : build "daily" "report" "0 9 * * *" (some "[1, true]") ["queue=mail", "timeout=30"]
      true newYear = .ok daily := by decide +kernel
  have hlate : build "late" "report" "0 0 9 * * * 2025" none [] true newYear = .ok late := by
    decide +kernel
  have hdistinct : ∀ act ∈ morning, act.Distinct := by simp [morning, Act.Distinct]
  have hnew : ∀ id ∈ ["daily", "late"],
      ((fresh ⟨16, [], true, false⟩ 1000).run morning).table.lookup id = none := by
    decide +kernel
  have hyear : newYear.Storable ∧ newYear.date.year = 2026 := by decide +kernel
  -- the years to come are too many to be searched one day after the other
  have hover : Crontab.accepts newYear late.cron = false := by
    have hyears : (Cron.Schedule.parse late.cron).map Cron.Schedule.years = .ok [2025] := by
      decide +kernel
    exact Crontab.accepts_of_past hyears (by simp [hyear.2])
  refine ⟨hdaily, hlate, hdistinct, ?_, ?_, hyear.1, by decide +kernel, hover⟩
  · exact enrolled_of_build hdaily hyear.1.proper (c := .empty) List.nodup_nil (save_empty daily)
      _ _ hdistinct (hnew "daily" (by simp))
  · exact enrolled_of_build hlate hyear.1.proper (c := .empty) List.nodup_nil (save_empty late)
      _ _ hdistinct (hnew "late" (by simp))

end Courier.Command.Jobs

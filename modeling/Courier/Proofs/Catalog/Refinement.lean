import Courier.Proofs.Catalog.Rows
import Courier.Proofs.Job.Options
import Courier.Proofs.Time.StoredOrder
import Mathlib.Data.Finmap

/-!
The catalog as a map.

`Jobs` is what a catalog is for those who use it: a finite map from ids to jobs.  A catalog mirrors
it when its rows are those of the jobs in the map (`Mirrors`), and then it shows them (`Shows`): it
gives, counts and lists just the jobs of the map.

This is a refinement.  `Mirrors` is the relation between the two states, and each edit keeps it and
gets the same answer from both (`Mirrors.save`, `Mirrors.setEnabled`, `Mirrors.remove`); an edit
that is refused leaves both as they are.  That `Shows` follows from `Mirrors` is one lemma for every
way of asking, so a new way of asking would not touch the edits.

A job can be stored if its payload is not null, its options are read back and its timestamp is one
of the years 0 to 9999 (`Job.Storable`); only then is the row of a job read as that job
(`Row.job_ofJob`), and only then is the order of the texts that the table sorts by the order of the
timestamps.  Both conditions are needed nowhere else.

Main statement: after any edits with jobs that can be stored, the answers of the catalog have been
those of the map, and it shows the map (`Catalog.shows_editAll`).
-/

namespace Courier

/-! ### Rows read back -/

/-- Whether a job can be stored: its values are read back from their texts, and so is its
timestamp. -/
structure Job.Storable (j : Job) : Prop where
  payload : ∀ v, j.payload = some v → v.Faithful ∧ v.depth ≤ 127
  options : ∀ o ∈ j.options, o.value.Faithful ∧ o.value.depth ≤ 125
  updatedAt : j.updatedAt.Storable

namespace Catalog

/-- The row of a job is read back as the job with the payload that is read. -/
theorem Row.job_ofJob_of_payload {j : Job} {payload : Option Json.Value}
    (hpayload : readPayload (j.payload.map Json.Value.text) = .ok payload)
    (hoptions : ∀ o ∈ j.options, o.value.Faithful ∧ o.value.depth ≤ 125)
    (hupdated : j.updatedAt.Storable) : (Row.ofJob j).job = .ok { j with payload } := by
  have hoptions : readOptions (String.ofList (JobOption.printList j.options)) = .ok j.options := by
    have hread := JobOption.listOfText_printList (fun o ho => (hoptions o ho).1) (by
      intro o ho
      have hdepth := (hoptions o ho).2
      show 2 + o.value.depth ≤ 127
      omega)
    simp only [readOptions, hread]
  have htime : readTime j.updatedAt.stored = .ok j.updatedAt := by
    simp only [readTime, Time.Timestamp.strict?_stored_eq hupdated]
  simp only [job, ofJob, hpayload, hoptions, htime]
  obtain ⟨id, name, cron, payload, options, enabled, updatedAt⟩ := j
  cases enabled with
  | true => rfl
  | false => rfl

/-- The row of a job is read back as the job. -/
theorem Row.job_ofJob {j : Job} (h : j.Storable) : (Row.ofJob j).job = .ok j := by
  have hpayload : readPayload (j.payload.map Json.Value.text) = .ok j.payload := by
    rcases hj : j.payload with - | v
    · rfl
    · obtain ⟨hfaithful, hdepth⟩ := h.payload v hj
      simp only [Option.map_some, readPayload, Json.parse_text hfaithful hdepth]
  exact Row.job_ofJob_of_payload hpayload h.options h.updatedAt

/-! ### Edits -/

/-- The jobs of a catalog by their ids. -/
abbrev Jobs := Finmap fun _ : String => Job

/-- What may be done to a catalog. -/
inductive Edit
  | save (j : Job)
  | setEnabled (id : String) (enabled : Bool) (now : Time.Instant)
  | remove (id : String)

/-- Whether what is written by an edit can be stored. -/
def Edit.Storable : Edit → Prop
  | .save j => j.Storable
  | .setEnabled _ _ now => now.Storable
  | .remove _ => True

/-- Edits a catalog. -/
def edit (c : Catalog) : Edit → Result Catalog
  | .save j => c.save j
  | .setEnabled id enabled now => c.setEnabled id enabled now
  | .remove id => c.remove id

/-- Edits a map of jobs: saving replaces a job with all its fields, and there is nothing to turn on
or off or to remove under an id without a job. -/
def Jobs.edit (m : Jobs) : Edit → Result Jobs
  | .save j => .ok (m.insert j.id j)
  | .setEnabled id enabled now =>
    match m.lookup id with
    | none => .error (.jobNotFound id)
    | some j => .ok (m.insert id { j with enabled, updatedAt := now })
  | .remove id => if id ∈ m then .ok (m.erase id) else .error (.jobNotFound id)

/-- Makes edits one after the other: the answers, and what there is afterwards.  An edit that fails
changes nothing. -/
def editAll {α : Type} (edit : α → Edit → Result α) (a : α) : List Edit → List (Result Unit) × α
  | [] => ([], a)
  | e :: es =>
    let answer := edit a e
    let (answers, a') := editAll edit (answer.toOption.getD a) es
    (answer.map (fun _ => ()) :: answers, a')

/-! ### Rows and maps -/

/-- The rows of a catalog are those of the jobs of a map. -/
structure Mirrors (c : Catalog) (m : Jobs) : Prop where
  opened : c.table.isSome
  distinct : c.Distinct
  rows : ∀ id, c.row? id = (m.lookup id).map Row.ofJob
  ids : ∀ id j, m.lookup id = some j → j.id = id
  storable : ∀ id j, m.lookup id = some j → j.Storable

theorem mirrors_empty : Mirrors .empty ∅ where
  opened := rfl
  distinct := List.nodup_nil
  rows := by
    intro id
    rfl
  ids := by
    intro id j h
    cases h
  storable := by
    intro id j h
    cases h

namespace Mirrors

variable {c : Catalog} {m : Jobs}

/-- A row is written for a job that takes its place in the map. -/
theorem insert (h : Mirrors c m) {c' : Catalog} (hopened : c'.table.isSome)
    (hdistinct : c'.Distinct) {j : Job} (hj : j.Storable)
    (hrows : ∀ id, c'.row? id = if j.id = id then some (Row.ofJob j) else c.row? id) :
    Mirrors c' (m.insert j.id j) := by
  -- the map has the new job under its id, and what it had elsewhere
  have hlookup : ∀ id, (m.insert j.id j).lookup id = if j.id = id then some j else m.lookup id := by
    intro id
    by_cases hid : j.id = id
    · subst hid
      rw [Finmap.lookup_insert, if_pos rfl]
    · rw [Finmap.lookup_insert_of_ne _ (Ne.symm hid), if_neg hid]
  constructor
  case opened => exact hopened
  case distinct => exact hdistinct
  case rows =>
    intro id
    rw [hrows, hlookup]
    split
    · rfl
    · exact h.rows id
  case ids =>
    intro id i hi
    rw [hlookup] at hi
    split at hi
    · rename_i hid
      obtain rfl := Option.some.inj hi
      exact hid
    · exact h.ids id i hi
  case storable =>
    intro id i hi
    rw [hlookup] at hi
    split at hi
    · obtain rfl := Option.some.inj hi
      exact hj
    · exact h.storable id i hi

/-- The rows of the table, as they are found. -/
theorem table (h : Mirrors c m) : ∃ rows, c.table = some rows ∧
    ∀ id, Table.find? id rows = (m.lookup id).map Row.ofJob := by
  obtain ⟨rows, hrows⟩ := Option.isSome_iff_exists.mp h.opened
  refine ⟨rows, hrows, ?_⟩
  intro id
  rw [← h.rows, row?, hrows]
  rfl

end Mirrors

/-- The answers of a catalog and of the map that it mirrors are the same, and it mirrors the map
afterwards. -/
inductive Agrees : Result Catalog → Result Jobs → Prop
  | ok {c : Catalog} {m : Jobs} (h : Mirrors c m) : Agrees (.ok c) (.ok m)
  | error (e : SchedulerError) : Agrees (.error e) (.error e)

namespace Mirrors

variable {c : Catalog} {m : Jobs}

theorem save (h : Mirrors c m) {j : Job} (hj : j.Storable) :
    Agrees (c.edit (.save j)) (m.edit (.save j)) := by
  obtain ⟨rows, hrows, -⟩ := h.table
  obtain ⟨c', hsave⟩ : ∃ c', c.save j = .ok c' := by simp [Catalog.save, hrows]
  show Agrees (c.save j) _
  rw [hsave]
  exact .ok (h.insert (isSome_save hsave) (distinct_save h.distinct hsave) hj (row?_save hsave))

theorem setEnabled (h : Mirrors c m) (id : String) (enabled : Bool) {now : Time.Instant}
    (hnow : now.Storable) :
    Agrees (c.edit (.setEnabled id enabled now)) (m.edit (.setEnabled id enabled now)) := by
  obtain ⟨rows, hrows, hfind⟩ := h.table
  show Agrees (c.setEnabled id enabled now) _
  -- no row has the id, and then the map has no job with it, or there is a row to be written
  rcases hj : m.lookup id with - | j
  · have hset : c.setEnabled id enabled now = .error (.jobNotFound id) := by
      simp [Catalog.setEnabled, hrows, hfind, hj]
    have hedit : m.edit (.setEnabled id enabled now) = .error (.jobNotFound id) := by
      simp only [Jobs.edit, hj]
    rw [hset, hedit]
    exact .error _
  · obtain ⟨c', hset⟩ : ∃ c', c.setEnabled id enabled now = .ok c' := by
      simp [Catalog.setEnabled, hrows, hfind, hj]
    have hedit : m.edit (.setEnabled id enabled now) =
        .ok (m.insert id { j with enabled, updatedAt := now }) := by
      simp only [Jobs.edit, hj]
    rw [hset, hedit]
    obtain rfl := h.ids id j hj
    obtain ⟨hpayload, hoptions, -⟩ := h.storable j.id j hj
    have hstorable : ({ j with enabled, updatedAt := now } : Job).Storable :=
      ⟨hpayload, hoptions, hnow⟩
    refine .ok (h.insert (isSome_setEnabled hset) (distinct_setEnabled h.distinct hset) hstorable ?_)
    intro id
    rw [row?_setEnabled hset, h.rows j.id, hj]
    rfl

theorem remove (h : Mirrors c m) (id : String) :
    Agrees (c.edit (.remove id)) (m.edit (.remove id)) := by
  obtain ⟨rows, hrows, hfind⟩ := h.table
  show Agrees (c.remove id) _
  -- the same for a row to be taken out
  rcases hj : m.lookup id with - | j
  · have hremove : c.remove id = .error (.jobNotFound id) := by
      simp [Catalog.remove, hrows, hfind, hj]
    have hedit : m.edit (.remove id) = .error (.jobNotFound id) :=
      if_neg (Finmap.lookup_eq_none.mp hj)
    rw [hremove, hedit]
    exact .error _
  · obtain ⟨c', hremove⟩ : ∃ c', c.remove id = .ok c' := by
      simp [Catalog.remove, hrows, hfind, hj]
    have hedit : m.edit (.remove id) = .ok (m.erase id) :=
      if_pos (Finmap.mem_of_lookup_eq_some hj)
    rw [hremove, hedit]
    have hlookup : ∀ id', (m.erase id).lookup id' = if id = id' then none else m.lookup id' := by
      intro id'
      by_cases hid : id = id'
      · subst hid
        rw [Finmap.lookup_erase, if_pos rfl]
      · rw [Finmap.lookup_erase_ne (Ne.symm hid), if_neg hid]
    -- what is left was there before
    have hleft : ∀ id' i, (m.erase id).lookup id' = some i → m.lookup id' = some i := by
      intro id' i hi
      rw [hlookup] at hi
      split at hi
      · cases hi
      · exact hi
    refine .ok ⟨isSome_remove hremove, distinct_remove h.distinct hremove, ?_,
      fun id' i hi => h.ids id' i (hleft id' i hi), fun id' i hi => h.storable id' i (hleft id' i hi)⟩
    intro id'
    rw [row?_remove hremove, hlookup]
    split
    · rfl
    · exact h.rows id'

theorem edit (h : Mirrors c m) {e : Edit} (he : e.Storable) : Agrees (c.edit e) (m.edit e) := by
  cases e with
  | save j => exact h.save he
  | setEnabled id enabled now => exact h.setEnabled id enabled he
  | remove id => exact h.remove id

theorem editAll (h : Mirrors c m) {es : List Edit} (hes : ∀ e ∈ es, e.Storable) :
    (Catalog.editAll Catalog.edit c es).1 = (Catalog.editAll Jobs.edit m es).1 ∧
      Mirrors (Catalog.editAll Catalog.edit c es).2 (Catalog.editAll Jobs.edit m es).2 := by
  induction es generalizing c m with
  | nil => exact ⟨rfl, h⟩
  | cons e es ih =>
    have hes' : ∀ e ∈ es, e.Storable := fun e he => hes e (List.mem_cons_of_mem _ he)
    have hedit := h.edit (hes e List.mem_cons_self)
    simp only [Catalog.editAll]
    generalize c.edit e = answer at hedit
    generalize Jobs.edit m e = answer' at hedit
    cases hedit with
    | ok hmirrors =>
      obtain ⟨hanswers, hafter⟩ := ih hmirrors hes'
      exact ⟨congrArg (.ok () :: ·) hanswers, hafter⟩
    | error err =>
      obtain ⟨hanswers, hafter⟩ := ih h hes'
      exact ⟨congrArg (.error err :: ·) hanswers, hafter⟩

end Mirrors

/-! ### What a catalog shows -/

/-- Whether these are the jobs with a property, each one once, newest first. -/
structure Lists (js : List Job) (P : Job → Prop) : Prop where
  jobs : ∀ j, j ∈ js ↔ P j
  once : js.Nodup
  newestFirst : js.Pairwise fun a b => b.updatedAt ≤ a.updatedAt

theorem Lists.congr {js : List Job} {P Q : Job → Prop} (h : Lists js P) (hPQ : ∀ j, P j ↔ Q j) :
    Lists js Q :=
  ⟨fun j => (h.jobs j).trans (hPQ j), h.once, h.newestFirst⟩

/-- A catalog shows the jobs of a map. -/
structure Shows (c : Catalog) (m : Jobs) : Prop where
  get : ∀ id, c.get id = .ok (m.lookup id)
  count : c.count = .ok m.keys.card
  list : ∃ js, c.list = .ok js ∧ Lists js fun j => m.lookup j.id = some j
  enabled : ∃ js, c.enabled = js.map .ok ∧
    Lists js fun j => m.lookup j.id = some j ∧ j.enabled = true

/-- Rows are sorted by the texts of their timestamps. -/
theorem newestFirst_pairwise (rs : List Row) :
    (Table.newestFirst rs).Pairwise fun a b => ¬ a.updatedAt < b.updatedAt := by
  have hsorted : (Table.newestFirst rs).Pairwise fun a b =>
      (!decide (a.updatedAt < b.updatedAt)) = true := by
    refine List.pairwise_mergeSort ?_ ?_ rs
    · intro a b c hab hbc
      simp only [Bool.not_eq_true', decide_eq_false_iff_not, not_lt] at hab hbc ⊢
      exact le_trans hbc hab
    · intro a b
      simp only [Bool.or_eq_true, Bool.not_eq_true', decide_eq_false_iff_not, not_lt]
      exact le_total b.updatedAt a.updatedAt
  refine hsorted.imp ?_
  intro a b hab
  exact of_decide_eq_false ((Bool.not_eq_true' _).mp hab)

theorem exists_eq_map {P : Job → Prop} {rs : List Row}
    (h : ∀ r ∈ rs, ∃ j, r = Row.ofJob j ∧ P j) :
    ∃ js : List Job, rs = js.map Row.ofJob ∧ ∀ j ∈ js, P j := by
  induction rs with
  | nil => exact ⟨[], rfl, by simp⟩
  | cons r rs ih =>
    obtain ⟨j, rfl, hj⟩ := h r List.mem_cons_self
    obtain ⟨js, rfl, hjs⟩ := ih fun s hs => h s (List.mem_cons_of_mem _ hs)
    exact ⟨j :: js, rfl, List.forall_mem_cons.mpr ⟨hj, hjs⟩⟩

namespace Mirrors

variable {c : Catalog} {m : Jobs}

theorem nodup_ids (h : Mirrors c m) {rows : List Row} (hrows : c.table = some rows) :
    (rows.map Row.id).Nodup := by
  have hdistinct := h.distinct
  rw [Distinct, hrows] at hdistinct
  exact hdistinct

/-- The rows of the table are those of the jobs in the map. -/
theorem mem_rows (h : Mirrors c m) {rows : List Row} (hrows : c.table = some rows) {r : Row} :
    r ∈ rows ↔ ∃ j, r = Row.ofJob j ∧ m.lookup j.id = some j := by
  have hrow := row?_eq_some_iff h.distinct (r := r)
  rw [hrows, Option.getD_some] at hrow
  rw [← hrow, h.rows, Option.map_eq_some_iff]
  constructor
  · rintro ⟨j, hj, rfl⟩
    exact ⟨j, rfl, hj⟩
  · rintro ⟨j, rfl, hj⟩
    exact ⟨j, hj, rfl⟩

/-- Rows of the table in the order of their timestamps are those of jobs, newest first. -/
theorem newestFirst (h : Mirrors c m) {rows rs : List Row} (hrows : c.table = some rows)
    (hrs : rs.Sublist rows) :
    ∃ js : List Job, Table.newestFirst rs = js.map Row.ofJob ∧
      Lists js fun j => m.lookup j.id = some j ∧ Row.ofJob j ∈ rs := by
  have hperm : (Table.newestFirst rs).Perm rs := List.mergeSort_perm rs _
  have hjob : ∀ r ∈ Table.newestFirst rs, ∃ j, r = Row.ofJob j ∧ m.lookup j.id = some j :=
    fun r hr => (h.mem_rows hrows).mp (hrs.subset (hperm.subset hr))
  obtain ⟨js, hsorted, hjs⟩ := exists_eq_map hjob
  -- the list has the jobs, each of them once, and newest first
  refine ⟨js, hsorted, ?_, ?_, ?_⟩
  · intro j
    constructor
    · intro hj
      refine ⟨hjs j hj, hperm.subset ?_⟩
      rw [hsorted]
      exact List.mem_map_of_mem hj
    · rintro ⟨hj, hmem⟩
      have hrow := hperm.symm.subset hmem
      rw [hsorted] at hrow
      obtain ⟨i, hi, heq⟩ := List.mem_map.mp hrow
      -- jobs with one row are one job
      have hread := Row.job_ofJob (h.storable i.id i (hjs i hi))
      rw [heq, Row.job_ofJob (h.storable j.id j hj)] at hread
      obtain rfl := Except.ok.inj hread
      exact hi
  · -- no two of them have one id, as no two rows have
    have hids : ((Table.newestFirst rs).map Row.id).Nodup :=
      (hperm.map Row.id).nodup_iff.mpr ((h.nodup_ids hrows).sublist (hrs.map Row.id))
    rw [hsorted] at hids
    exact (List.Nodup.of_map _ hids).of_map _
  · -- sorted by the texts of the timestamps, so by the timestamps
    have htexts := newestFirst_pairwise rs
    rw [hsorted, List.pairwise_map] at htexts
    refine htexts.imp_of_mem ?_
    intro a b ha hb hnot
    change ¬ a.updatedAt.stored < b.updatedAt.stored at hnot
    rw [Time.Instant.stored_lt_iff (h.storable a.id a (hjs a ha)).updatedAt
      (h.storable b.id b (hjs b hb)).updatedAt] at hnot
    exact not_lt.mp hnot

theorem shows (h : Mirrors c m) : Shows c m := by
  obtain ⟨rows, hrows, hfind⟩ := h.table
  have hread : ∀ j, m.lookup j.id = some j → (Row.ofJob j).job = .ok j :=
    fun j hj => Row.job_ofJob (h.storable j.id j hj)
  constructor
  -- a row is looked up by its id, and so is a job
  case get =>
    intro id
    rw [Catalog.get, hrows]
    simp only [hfind]
    rcases hj : m.lookup id with - | j
    · rfl
    · simp only [Option.map_some, Row.job_ofJob (h.storable id j hj)]
      rfl
  case count =>
    -- rows and jobs have the same ids, and no two rows have one id
    have hids : (rows.map Row.id).toFinset = m.keys := by
      ext id
      rw [List.mem_toFinset, Finmap.mem_keys, ← Finmap.lookup_isSome, ← Option.isSome_map,
        ← hfind, Table.find?, List.find?_isSome]
      simp
    rw [Catalog.count, hrows, ← hids, List.toFinset_card_of_nodup (h.nodup_ids hrows),
      List.length_map]
  case list =>
    obtain ⟨js, hsorted, hlists⟩ := h.newestFirst hrows (.refl rows)
    refine ⟨js, ?_, hlists.congr ?_⟩
    · rw [Catalog.list, hrows]
      simp only [hsorted]
      exact mapM_map_eq_ok fun j hj => hread j ((hlists.jobs j).mp hj).1
    · intro j
      exact ⟨fun hj => hj.1, fun hj => ⟨hj, (h.mem_rows hrows).mpr ⟨j, rfl, hj⟩⟩⟩
  -- the enabled ones are those whose row says so
  case enabled =>
    obtain ⟨js, hsorted, hlists⟩ := h.newestFirst hrows
      (List.filter_sublist (p := fun r => r.enabled = 1))
    refine ⟨js, ?_, hlists.congr ?_⟩
    · rw [Catalog.enabled, hrows]
      simp only [hsorted, List.map_map]
      exact List.map_congr_left fun j hj => hread j ((hlists.jobs j).mp hj).1
    · intro j
      have henabled : (Row.ofJob j).enabled = 1 ↔ j.enabled = true := by
        cases hj : j.enabled <;> simp [Row.ofJob, hj]
      rw [List.mem_filter, decide_eq_true_eq, henabled]
      exact ⟨fun hj => ⟨hj.1, hj.2.2⟩, fun hj => ⟨hj.1, (h.mem_rows hrows).mpr ⟨j, rfl, hj.1⟩, hj.2⟩⟩

end Mirrors

/-- After any edits with jobs that can be stored, beginning with nothing, a catalog has answered like
the map of its jobs, and it shows the map. -/
theorem shows_editAll {es : List Edit} (hes : ∀ e ∈ es, e.Storable) :
    (editAll edit .empty es).1 = (editAll Jobs.edit ∅ es).1 ∧
      Shows (editAll edit .empty es).2 (editAll Jobs.edit ∅ es).2 := by
  obtain ⟨hanswers, hmirrors⟩ := mirrors_empty.editAll hes
  exact ⟨hanswers, hmirrors.shows⟩

/-- Two jobs are saved, one with a payload of null; then one is turned off, and one removed that is
not there. -/
def edited : List Edit :=
  [.save ⟨"a", "mail", "0 6 * * *", some .null,
      [⟨"queue", .string "low"⟩, ⟨"unique", .number (.whole 30)⟩], true, ⟨0, 5⟩⟩,
    .save ⟨"b", "mail", "", some (.array [.number (.real ⟨false, 4503599627370496, -53⟩)]), [], true,
      ⟨60, 0⟩⟩,
    .setEnabled "a" false ⟨90, 0⟩, .remove "c"]

theorem shows_editAll_edited :
    (∀ e ∈ edited, e.Storable) ∧
      (editAll edit .empty edited).1 = (editAll Jobs.edit ∅ edited).1 ∧
      Shows (editAll edit .empty edited).2 (editAll Jobs.edit ∅ edited).2 := by
  have hhalf : Json.Number.Faithful (.real ⟨false, 4503599627370496, -53⟩) := by
    unfold Json.Number.Faithful
    decide +kernel
  have hfirst : Job.Storable ⟨"a", "mail", "0 6 * * *", some .null,
      [⟨"queue", .string "low"⟩, ⟨"unique", .number (.whole 30)⟩], true, ⟨0, 5⟩⟩ := by
    refine ⟨?_, ?_, by decide +kernel⟩
    · simp [Json.Value.Faithful, Json.Value.depth]
    · simp [Json.Value.Faithful, Json.Number.Faithful, Json.isExact, Json.Value.depth]
  have hsecond : Job.Storable ⟨"b", "mail", "",
      some (.array [.number (.real ⟨false, 4503599627370496, -53⟩)]), [], true, ⟨60, 0⟩⟩ := by
    refine ⟨?_, by simp, by decide +kernel⟩
    simp [Json.Value.Faithful, Json.Value.Faithful.faithfulItems, hhalf, Json.Value.depth,
      Json.Value.depth.depthItems]
  have hnow : Time.Instant.Storable ⟨90, 0⟩ := by decide +kernel
  have hstorable : ∀ e ∈ edited, e.Storable := by
    simp [edited, Edit.Storable, hfirst, hsecond, hnow]
  exact ⟨hstorable, shows_editAll hstorable⟩

example : (editAll edit .empty edited).1 = [.ok (), .ok (), .ok (), .error (.jobNotFound "c")] := by
  decide +kernel

end Catalog
end Courier

import Courier.Proofs.Keyed
import Courier.Scheduler.Feed

/-!
The rows of the catalog.

`Catalog.row?` looks a row up by its id.  No id has two rows (`Catalog.Distinct`), and every
operation keeps it so; `row?_save`, `row?_setEnabled` and `row?_remove` say what it does to the
look-up, together with what it answers.

The lemmas about lists of rows come first: what an upsert, a change of rows and their removal do to
the first row with an id (`Table.find?_upsert`, `Table.find?_map`, `Table.find?_filter_ne`).  A row
that is turned on or off keeps its id, which is all that is needed of the change.

`mem_enabled` says which rows a scheduler is given: those that are on, each read as a job or as what
is wrong with it.  Everything that is proved of the catalog elsewhere is proved from the look-up.
-/

namespace Courier.Catalog

/-! ### Tables -/

namespace Table

theorem find?_upsert (r : Row) (rows : List Row) (id : String) :
    find? id (upsert r rows) = if r.id = id then some r else find? id rows := by
  induction rows with
  | nil => by_cases h : r.id = id <;> simp [find?, h]
  | cons s rows ih =>
    -- the row of the id stands here, or further on
    by_cases hs : s.id = r.id
    · by_cases h : r.id = id
      · simp [upsert, find?, hs, h]
      · simp [upsert, find?, hs, h]
    · simp only [upsert, hs, if_false]
      by_cases h : s.id = id
      · have hne : ¬ r.id = id := fun hr => hs (h.trans hr.symm)
        simp [find?, h, hne]
      · have hrest : find? id (s :: upsert r rows) = find? id (upsert r rows) := by
          simp [find?, h]
        have hrows : find? id (s :: rows) = find? id rows := by simp [find?, h]
        rw [hrest, hrows, ih]

theorem mem_ids_upsert {r : Row} {rows : List Row} {id : String}
    (h : id ∈ (upsert r rows).map Row.id) : id = r.id ∨ id ∈ rows.map Row.id := by
  induction rows with
  | nil => exact .inl (by simpa using h)
  | cons s rows ih =>
    by_cases hs : s.id = r.id
    · simp only [upsert, hs, if_true, List.map_cons, List.mem_cons] at h ⊢
      exact h.imp_right .inr
    · simp only [upsert, hs, if_false, List.map_cons, List.mem_cons] at h ⊢
      rcases h with h | h
      · exact .inr (.inl h)
      · exact (ih h).imp_right .inr

theorem nodup_upsert {rows : List Row} (h : (rows.map Row.id).Nodup) (r : Row) :
    ((upsert r rows).map Row.id).Nodup := by
  induction rows with
  | nil => simp
  | cons s rows ih =>
    obtain ⟨hs, hrows⟩ := List.nodup_cons.mp h
    by_cases heq : s.id = r.id
    · simp only [upsert, heq, if_true, List.map_cons]
      exact List.nodup_cons.mpr ⟨heq ▸ hs, hrows⟩
    · simp only [upsert, heq, if_false, List.map_cons]
      refine List.nodup_cons.mpr ⟨fun hmem => ?_, ih hrows⟩
      rcases mem_ids_upsert hmem with hid | hid
      · exact heq hid
      · exact hs hid

/-- Rows that keep their ids are found as before. -/
theorem find?_map {f : Row → Row} (hf : ∀ r, (f r).id = r.id) (rows : List Row) (id : String) :
    find? id (rows.map f) = (find? id rows).map f := by
  have hpred : (fun r : Row => r.id == id) ∘ f = fun r => r.id == id := by
    funext r
    simp [hf]
  rw [find?, List.find?_map, hpred]
  rfl

theorem find?_filter_ne (rows : List Row) (id id' : String) :
    find? id (rows.filter fun r => r.id ≠ id') = if id' = id then none else find? id rows := by
  rw [find?, List.find?_filter]
  by_cases h : id' = id
  · subst h
    simp
  · rw [if_neg h, find?]
    congr 1
    funext r
    by_cases hr : r.id = id
    · simp [hr, Ne.symm h]
    · simp [hr]

end Table

/-! ### Look-up -/

/-- The row of an id. -/
def row? (c : Catalog) (id : String) : Option Row := c.table.bind (Table.find? id)

/-- Whether no id has two rows. -/
def Distinct (c : Catalog) : Prop := ((c.table.getD []).map Row.id).Nodup

variable {c c' : Catalog}

theorem id_of_row? {id : String} {r : Row} (h : c.row? id = some r) : r.id = id := by
  obtain ⟨rows, -, hr⟩ := Option.bind_eq_some_iff.mp h
  simpa using List.find?_some hr

theorem row?_eq_some_iff (h : c.Distinct) {r : Row} :
    c.row? r.id = some r ↔ r ∈ c.table.getD [] := by
  obtain ⟨table⟩ := c
  rcases table with - | rows
  · simp [row?]
  · have hrows : (rows.map Row.id).Nodup := h
    show rows.find? (fun s => s.id == r.id) = some r ↔ r ∈ rows
    exact ⟨List.mem_of_find?_eq_some, find?_key_of_mem hrows⟩

/-! ### Operations -/

theorem row?_save {j : Job} (h : c.save j = .ok c') (id : String) :
    c'.row? id = if j.id = id then some (Row.ofJob j) else c.row? id := by
  obtain ⟨table⟩ := c
  rcases table with - | rows
  · cases h
  · obtain rfl := Except.ok.inj h
    exact Table.find?_upsert (Row.ofJob j) rows id

theorem isSome_save {j : Job} (h : c.save j = .ok c') : c'.table.isSome := by
  unfold save at h
  split at h
  · cases h
  · obtain rfl := Except.ok.inj h
    rfl

theorem distinct_save {j : Job} (hc : c.Distinct) (h : c.save j = .ok c') : c'.Distinct := by
  obtain ⟨table⟩ := c
  rcases table with - | rows
  · cases h
  · obtain rfl := Except.ok.inj h
    exact Table.nodup_upsert hc (Row.ofJob j)

/-- The row of a job that is turned on or off. -/
def Row.turned (r : Row) (enabled : Bool) (now : Time.Instant) : Row :=
  { r with enabled := if enabled then 1 else 0, updatedAt := now.stored }

theorem setEnabled_eq {id : String} {enabled : Bool} {now : Time.Instant}
    (h : c.setEnabled id enabled now = .ok c') :
    (c.row? id).isSome ∧ c' = ⟨c.table.map fun rows =>
      rows.map fun r => if r.id = id then r.turned enabled now else r⟩ := by
  obtain ⟨table⟩ := c
  rcases table with - | rows
  · cases h
  · unfold setEnabled at h
    simp only at h
    split at h
    · cases h
    · rename_i hfound
      exact ⟨by simpa [row?, Option.isSome_iff_ne_none] using hfound, (Except.ok.inj h).symm⟩

theorem isSome_setEnabled {id : String} {enabled : Bool} {now : Time.Instant}
    (h : c.setEnabled id enabled now = .ok c') : c'.table.isSome := by
  obtain ⟨hrow, rfl⟩ := setEnabled_eq h
  obtain ⟨table⟩ := c
  rcases table with - | rows
  · cases hrow
  · rfl

theorem row?_setEnabled {id : String} {enabled : Bool} {now : Time.Instant}
    (h : c.setEnabled id enabled now = .ok c') (id' : String) :
    c'.row? id' = if id = id' then (c.row? id).map fun r => r.turned enabled now
      else c.row? id' := by
  obtain ⟨-, rfl⟩ := setEnabled_eq h
  obtain ⟨table⟩ := c
  rcases table with - | rows
  · simp [row?]
  · have hmap := Table.find?_map (f := fun r => if r.id = id then r.turned enabled now else r)
      (by intro r; split <;> rfl) rows id'
    show Table.find? id' (rows.map _) = if id = id' then (Table.find? id rows).map _ else _
    rw [hmap]
    rcases hrow : Table.find? id' rows with - | r
    · by_cases hid : id = id'
      · simp [hid, hrow]
      · simp [hid, row?, hrow]
    · have hr : r.id = id' := id_of_row? (c := ⟨some rows⟩) hrow
      by_cases hid : id = id'
      · simp [hid, hrow, hr]
      · have hne : ¬ r.id = id := fun h => hid (h.symm.trans hr)
        simp [hid, row?, hrow, hne]

theorem distinct_setEnabled {id : String} {enabled : Bool} {now : Time.Instant}
    (hc : c.Distinct) (h : c.setEnabled id enabled now = .ok c') : c'.Distinct := by
  obtain ⟨-, rfl⟩ := setEnabled_eq h
  obtain ⟨table⟩ := c
  rcases table with - | rows
  · exact hc
  · have hids : (rows.map fun r => if r.id = id then r.turned enabled now else r).map Row.id =
        rows.map Row.id := by
      rw [List.map_map]
      refine List.map_congr_left fun r _ => ?_
      by_cases hr : r.id = id <;> simp [hr, Row.turned]
    show List.Nodup (List.map Row.id (rows.map _))
    rw [hids]
    exact hc

theorem remove_eq {id : String} (h : c.remove id = .ok c') :
    ∃ rows, c.table = some rows ∧ c' = ⟨some (rows.filter fun r => r.id ≠ id)⟩ := by
  unfold remove at h
  split at h
  · cases h
  · rename_i rows hrows
    split at h
    · cases h
    · exact ⟨rows, hrows, (Except.ok.inj h).symm⟩

theorem row?_remove {id : String} (h : c.remove id = .ok c') (id' : String) :
    c'.row? id' = if id = id' then none else c.row? id' := by
  obtain ⟨rows, hrows, rfl⟩ := remove_eq h
  rw [row?, row?, hrows]
  exact Table.find?_filter_ne rows id' id

theorem isSome_remove {id : String} (h : c.remove id = .ok c') : c'.table.isSome := by
  obtain ⟨rows, -, rfl⟩ := remove_eq h
  rfl

theorem distinct_remove {id : String} (hc : c.Distinct) (h : c.remove id = .ok c') :
    c'.Distinct := by
  obtain ⟨rows, hrows, rfl⟩ := remove_eq h
  rw [Distinct, hrows] at hc
  exact hc.sublist (List.filter_sublist.map _)

/-! ### Enabled rows -/

/-- A row that can be read is read column by column. -/
theorem Row.of_job {r : Row} {j : Job} (h : r.job = .ok j) :
    j.id = r.id ∧ j.name = r.name ∧ j.cron = r.cron ∧ readPayload r.payload = .ok j.payload ∧
      readOptions r.options = .ok j.options ∧ readTime r.updatedAt = .ok j.updatedAt := by
  unfold job at h
  split at h
  · cases h
  · cases h
  · cases h
  · rename_i payload options updatedAt hpayload hoptions htime
    obtain rfl := Except.ok.inj h
    exact ⟨rfl, rfl, rfl, hpayload, hoptions, htime⟩

theorem mem_enabled (hc : c.Distinct) (htable : c.table.isSome) {item : Result Job} :
    item ∈ c.enabled ↔ ∃ r, c.row? r.id = some r ∧ r.enabled = 1 ∧ r.job = item := by
  obtain ⟨table⟩ := c
  obtain ⟨rows, rfl⟩ := Option.isSome_iff_exists.mp htable
  show item ∈ (Table.newestFirst _).map Row.job ↔ _
  rw [List.mem_map]
  constructor
  · rintro ⟨r, hr, rfl⟩
    obtain ⟨hmem, henabled⟩ := List.mem_filter.mp (List.mem_mergeSort.mp hr)
    exact ⟨r, (row?_eq_some_iff hc).mpr hmem, of_decide_eq_true henabled, rfl⟩
  · rintro ⟨r, hr, henabled, rfl⟩
    have hmem := (row?_eq_some_iff hc).mp hr
    exact ⟨r, List.mem_mergeSort.mpr (List.mem_filter.mpr ⟨hmem, decide_eq_true henabled⟩), rfl⟩

end Courier.Catalog

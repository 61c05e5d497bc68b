import Courier.Proofs.Catalog.Rows

/-!
What is read from a feed.

A feed is a list of items with the time that each of them takes, and reading it ends with the first
failure or with the deadline.  So whoever reads it to its end has all of its jobs
(`Feed.jobs_of_read`), and nothing is ever read in part.

The jobs of a catalog's feed are those of its enabled rows, in order, and they have distinct ids
since its table has them (`Feed.mem_jobs_catalog`, `Feed.nodup_ids_catalog`).  Its rows come at
once, so it is read to its end just if all enabled rows can be read (`Feed.read_catalog_iff`).
-/

namespace Courier.Feed

/-- The jobs of a feed, without the failures. -/
def jobs (f : Feed) : List Job := f.items.filterMap fun item => item.2.toOption

theorem eq_of_readFrom {deadline timeout : Nat} {endless : Bool} {now : Nat}
    {items : List (Nat × Except SchedulerError Job)} {jobs : List Job}
    (h : (readFrom deadline timeout endless now items).2 = .ok jobs) :
    items.map Prod.snd = jobs.map .ok := by
  induction items generalizing now jobs with
  | nil =>
    unfold readFrom at h
    split at h
    · cases h
    · obtain rfl := Except.ok.inj h
      rfl
  | cons item items ih =>
    obtain ⟨wait, item⟩ := item
    unfold readFrom at h
    split at h
    · cases h
    · -- a failure or a row that comes too late ends the reading with an error
      rcases item with e | j
      · cases h
      · generalize hrest : readFrom deadline timeout endless (now + wait) items = rest at h
        obtain ⟨stop, rest⟩ := rest
        rcases rest with e | rest
        · cases h
        · obtain rfl : j :: rest = jobs := Except.ok.inj h
          rw [List.map_cons, List.map_cons, ih (congrArg Prod.snd hrest)]

/-- Whoever reads a feed to its end has met no failure. -/
theorem items_of_read {f : Feed} {now timeout : Nat} {jobs : List Job}
    (h : (f.read now timeout).2 = .ok jobs) : f.items.map Prod.snd = jobs.map .ok :=
  eq_of_readFrom h

/-- Whoever reads a feed to its end has all of its jobs. -/
theorem jobs_of_read {f : Feed} {now timeout : Nat} {jobs : List Job}
    (h : (f.read now timeout).2 = .ok jobs) : jobs = f.jobs := by
  have hitems : f.jobs = (f.items.map Prod.snd).filterMap Except.toOption := by
    rw [List.filterMap_map]
    rfl
  rw [hitems, items_of_read h, List.filterMap_map]
  exact List.filterMap_some.symm

/-! ### The feed of a catalog -/

theorem jobs_catalog (c : Catalog) :
    (JobSource.feed c).jobs = c.enabled.filterMap Except.toOption := by
  show (c.enabled.map fun item => (0, item)).filterMap _ = _
  rw [List.filterMap_map]
  rfl

theorem mem_jobs_catalog {c : Catalog} {j : Job} :
    j ∈ (JobSource.feed c).jobs ↔ .ok j ∈ c.enabled := by
  rw [jobs_catalog, List.mem_filterMap]
  constructor
  · rintro ⟨item, hitem, hj⟩
    rcases item with e | i
    · cases hj
    · obtain rfl : i = j := Option.some.inj hj
      exact hitem
  · intro hj
    exact ⟨.ok j, hj, rfl⟩

/-- Items that come at once are all read, if none of them is a failure. -/
theorem readFrom_at_once {deadline timeout now : Nat} {items : List (Except SchedulerError Job)}
    (hnow : now ≤ deadline) (h : ∀ item ∈ items, item.isOk) :
    (readFrom deadline timeout false now (items.map fun item => (0, item))).2 =
      .ok (items.filterMap Except.toOption) := by
  induction items with
  | nil => rfl
  | cons item items ih =>
    obtain ⟨hitem, hitems⟩ := List.forall_mem_cons.mp h
    rcases item with e | j
    · cases hitem
    · have hintime : ¬ deadline < now + 0 := Nat.not_lt.mpr hnow
      rw [List.map_cons, readFrom, if_neg hintime]
      show (readFrom deadline timeout false now _).2.map (j :: ·) = _
      rw [ih hitems]
      rfl

/-- A catalog is read to its end just if all its enabled rows can be read. -/
theorem read_catalog_iff {c : Catalog} {now timeout : Nat} :
    ((JobSource.feed c).read now timeout).2 = .ok (JobSource.feed c).jobs ↔
      ∀ item ∈ c.enabled, item.isOk := by
  constructor
  · intro h item hitem
    have hitems : c.enabled = (JobSource.feed c).jobs.map .ok := by
      rw [← items_of_read h]
      simp [JobSource.feed, Function.comp_def]
    rw [hitems] at hitem
    obtain ⟨j, -, rfl⟩ := List.mem_map.mp hitem
    rfl
  · intro h
    rw [jobs_catalog]
    exact readFrom_at_once (Nat.le_add_right now timeout) h

theorem ids_sublist (rows : List Catalog.Row) :
    (((rows.map Catalog.Row.job).filterMap Except.toOption).map Job.id).Sublist
      (rows.map Catalog.Row.id) := by
  induction rows with
  | nil => exact .slnil
  | cons r rows ih =>
    rw [List.map_cons, List.map_cons]
    rcases hr : r.job with e | j
    · exact ih.cons r.id
    · show (j.id :: _).Sublist (r.id :: _)
      rw [(Catalog.Row.of_job hr).1]
      exact ih.cons_cons r.id

theorem nodup_ids_catalog {c : Catalog} (hc : c.Distinct) :
    ((JobSource.feed c).jobs.map Job.id).Nodup := by
  rw [jobs_catalog]
  obtain ⟨table⟩ := c
  rcases table with - | rows
  · exact List.nodup_nil
  · refine (ids_sublist _).nodup ?_
    have hperm := (List.mergeSort_perm (rows.filter fun r => r.enabled = 1)
      fun a b => !(a.updatedAt < b.updatedAt)).map Catalog.Row.id
    exact hperm.nodup_iff.mpr (hc.sublist (List.filter_sublist.map _))

end Courier.Feed

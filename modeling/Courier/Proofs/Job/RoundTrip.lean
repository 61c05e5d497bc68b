import Courier.Proofs.Catalog.Refinement
import Courier.Proofs.Json.Records
import Courier.Proofs.Message.RoundTrip
import Courier.Proofs.Time.Loose

/-!
Jobs sent and read back.

The JSON text of a job is that of an object whose members are the fields that are there, the options
being an array of objects (`text_eq`).  Reading a job from a text is reading it from a value
(`Tracks`), provided that the values in it are faithful and fit in the depth that a parser allows.
So what a job is read as is decided by its members (`read_values`): every field is read as itself,
only a payload of `null` is read as none.

Which jobs are meant is said by `Portable`: the values in them are as JSON has them, with whole
numbers of 64 bits, fit in the containers around them, and the time is one that has a text.  The row
of a job in the catalog asks for a year of four digits on top of this; a row with another year is
not read as any job, so a row never denotes a job but its own.

Main statement: a job is read back from its JSON text unless its payload is `null`, while its row in
the catalog never denotes another job (`Job.roundTrip`).
-/

namespace Courier

open Json

namespace Json

/-! ### Lists and timestamps -/

/-- Lists are read alike from places and from values, if their items are. -/
theorem Tracks.list {α : Type} {atPlace : Place → Except DecodeError α}
    {atValue : Value → Except DecodeError α} (h : Tracks atPlace atValue) :
    Tracks (Read.list atPlace) (Read.list atValue) := by
  have hitems (room : Nat) (items : List Value) (hfaithful : ∀ v ∈ items, v.Faithful) :
      Agree (∀ v ∈ items, v.depth ≤ room)
        ((items.map fun v => (⟨room, v.document⟩ : Place)).mapM atPlace) (items.mapM atValue) := by
    induction items with
    | nil => exact .refl _
    | cons v vs ih =>
      obtain ⟨hv, hvs⟩ := List.forall_mem_cons.mp hfaithful
      rw [List.map_cons, List.mapM_cons, List.mapM_cons]
      refine ((h v hv room).mono fun hfits => hfits v List.mem_cons_self).bind fun a => ?_
      refine ((ih hvs).mono fun hfits w hw => hfits w (List.mem_cons_of_mem v hw)).bind fun as => ?_
      exact .refl _
  intro v hv room
  -- only an array is read as a list; of any other value both see the same kind
  unfold Read.list
  cases v with
  | number n =>
    rw [view_number hv]
    exact .error _ _
  | string s =>
    rw [view_string]
    exact .error _ _
  | array items =>
    have hroom := agree_enter_items items room
    rw [view_array]
    simp only [Source.view, ok_bind]
    refine .check hroom.1 (.bind ((hitems _ items (Value.faithful_of_mem hv)).mono hroom.2) ?_)
    exact fun _ => .refl _
  | object ms =>
    rw [view_object]
    exact .error _ _
  | _ => exact .error _ _

theorem Tracks.instant : Tracks Read.instant Read.instant := by
  intro v hv room
  unfold Read.instant
  -- only a string is read as an instant
  cases v with
  | number n =>
    rw [view_number hv]
    exact .error _ _
  | string s =>
    rw [view_string]
    exact .refl _
  | array items =>
    rw [view_array]
    exact .error _ _
  | object ms =>
    rw [view_object]
    exact .error _ _
  | _ => exact .error _ _

end Json

/-! ### Options -/

namespace JobOption

/-- The value whose text is the JSON text of an option. -/
def image (o : JobOption) : Value := .object [("type", .string o.kind), ("value", o.value)]

theorem read_image (o : JobOption) : read o.image = .ok o := rfl

theorem faithful_image {o : JobOption} (h : o.value.Faithful) : o.image.Faithful := by
  have hkeys : ["type", "value"].Pairwise (· < ·) := by decide
  refine Value.faithful_object ?_ ?_
  · exact hkeys
  · exact List.forall_mem_cons.mpr ⟨trivial, List.forall_mem_singleton.mpr h⟩

theorem depth_image (o : JobOption) : o.image.depth = 1 + o.value.depth := by
  simp [image, Value.depth, Value.depth.depthMembers]

theorem alike_fields : List.Forall₂ Alike (fields (S := Place)) (fields (S := Value)) := by
  refine .cons ⟨rfl, rfl, fun d => ?_⟩ (.cons ⟨rfl, rfl, fun d => ?_⟩ .nil)
  · exact Tracks.string.map _
  · exact Tracks.value.map _

/-- Reading an option from a text is reading it from a value. -/
theorem tracks_read : Tracks (read (S := Place)) (read (S := Value)) :=
  tracks_record alike_fields _ _ _

end JobOption

namespace Job

/-! ### From a job to its text -/

/-- Whether a job can be sent as JSON: its values are in order and hold whole numbers, there is room
for them in the containers around them, and its timestamp is one that can be represented. -/
structure Portable (j : Job) : Prop where
  payload : ∀ v, j.payload = some v →
    v.Ordered ∧ v.Numbers Number.Integral ∧ 1 + v.depth ≤ maxDepth
  options : ∀ o ∈ j.options,
    o.value.Ordered ∧ o.value.Numbers Number.Integral ∧ 3 + o.value.depth ≤ maxDepth
  proper : j.updatedAt.Proper
  representable : j.updatedAt.Representable

/-- The members of a job as written, with the values that they spell. -/
def values (j : Job) : List (String × Value) :=
  [("id", .string j.id), ("name", .string j.name), ("cron_expr", .string j.cron)] ++
  (match j.payload with
    | some p => [("payload", p)]
    | none => []) ++
  [("options", .array (j.options.map JobOption.image)), ("enabled", .bool j.enabled),
   ("updated_at", .string j.updatedAt.text)]

theorem members_eq (j : Job) : j.members = j.values.map fun v => (v.1, v.2.print) := by
  have hoptions : (Value.array (j.options.map JobOption.image)).print =
      JobOption.printList j.options := by
    simp only [Value.print, Value.printItems_eq_map, List.map_map, JobOption.printList]
    rfl
  unfold members values
  simp only [List.map_append, List.map_cons, List.map_nil, hoptions]
  cases j.payload <;> rfl

theorem text_eq (j : Job) : j.text = (Value.object j.values).text := by
  rw [text, members_eq, Value.text, Value.print, Value.printMembers_eq_map]

/-- What holds of every field that is there holds of all members. -/
theorem forall_values {P : Value → Prop} {j : Job} (hstring : ∀ s, P (.string s))
    (hpayload : ∀ v, j.payload = some v → P v)
    (hoptions : P (.array (j.options.map JobOption.image))) (henabled : P (.bool j.enabled)) :
    ∀ v ∈ j.values, P v.2 := by
  unfold values
  cases hp : j.payload <;> simp_all

/-! ### From a text to a job -/

theorem alike_fields : List.Forall₂ Alike (fields (S := Place)) (fields (S := Value)) := by
  refine .cons ⟨rfl, rfl, fun d => ?_⟩ (.cons ⟨rfl, rfl, fun d => ?_⟩ (.cons ⟨rfl, rfl, fun d => ?_⟩
    (.cons ⟨rfl, rfl, fun d => ?_⟩ (.cons ⟨rfl, rfl, fun d => ?_⟩ (.cons ⟨rfl, rfl, fun d => ?_⟩
      (.cons ⟨rfl, rfl, fun d => ?_⟩ .nil))))))
  · exact Tracks.string.map _
  · exact Tracks.string.map _
  · exact Tracks.string.map _
  · exact Tracks.value.optional.map _
  · exact JobOption.tracks_read.list.map _
  · exact Tracks.bool.map _
  · exact Tracks.instant.map _

/-- The job that is left of a job when a payload of `null` is no payload. -/
def withoutNull (j : Job) : Job :=
  { j with payload := if j.payload = some .null then none else j.payload }

theorem withoutNull_eq_iff {j : Job} : j.withoutNull = j ↔ j.payload ≠ some .null := by
  obtain ⟨id, name, cron, payload, options, enabled, updatedAt⟩ := j
  simp only [withoutNull, mk.injEq, true_and, and_true]
  constructor
  · rintro h rfl
    simp at h
  · intro h
    rw [if_neg h]

/-- The members of a job are read as the job, a payload of `null` as none. -/
theorem read_values {j : Job} (hproper : j.updatedAt.Proper)
    (hrange : j.updatedAt.Representable) : read (Value.object j.values) = .ok j.withoutNull := by
  obtain ⟨id, name, cron, payload, options, enabled, updatedAt⟩ := j
  have hstring (s : String) : Read.string (Value.string s) = .ok s := rfl
  have hbool (b : Bool) : Read.bool (Value.bool b) = .ok b := rfl
  have hoptions : JobOption.readList (Value.array (options.map JobOption.image)) = .ok options := by
    have hitems : (options.map JobOption.image).mapM JobOption.read = .ok options :=
      mapM_map_eq_ok fun o _ => JobOption.read_image o
    simp only [JobOption.readList, Read.list, Source.view, ok_bind, hitems, orFail]
    rfl
  have htime : Read.instant (Value.string updatedAt.text) = .ok updatedAt := by
    simp only [Read.instant, Source.view, ok_bind, Time.Timestamp.lenient?_text hproper hrange]
    rfl
  have hobject (ms : List (String × Value)) : Source.view (Value.object ms) =
      .ok (.object (.ok ()) (ms.map fun m => (.ok m.1, m.2)) none) := rfl
  -- with a payload and without, the fields are filled in order
  rcases payload with - | p
  · simp [read, Read.record, values, withoutNull, hobject, Read.fillNamed, fields, hstring, hbool,
      hoptions, htime, Draft.finish, orFail, bind, Except.bind, Except.map]
  · by_cases hp : p = .null
    · subst hp
      have hpayload : Read.optional Source.value Value.null = .ok none := rfl
      simp [read, Read.record, values, withoutNull, hobject, Read.fillNamed, fields, hpayload,
        hstring, hbool, hoptions, htime, Draft.finish, orFail, bind, Except.bind, Except.map]
    · have hpayload : Read.optional Source.value p = .ok (some p) :=
        (Read.optional_eq_ok fun h => hp (Except.ok.inj h).symm).mpr rfl
      simp [read, Read.record, values, withoutNull, hobject, Read.fillNamed, fields, hpayload, hp,
        hstring, hbool, hoptions, htime, Draft.finish, orFail, bind, Except.bind, Except.map]

/-- The JSON text of a job is read as the job, a payload of `null` as none. -/
theorem ofText_text {j : Job} (h : j.Portable) : ofText j.text = .ok j.withoutNull := by
  have hpayload : ∀ v, j.payload = some v → v.Faithful := by
    intro v hv
    obtain ⟨hordered, hnumbers, -⟩ := h.payload v hv
    exact hordered.faithful (hnumbers.mono fun _ hn => hn.faithful)
  have hoptions : (Value.array (j.options.map JobOption.image)).Faithful := by
    refine Value.faithful_array fun v hv => ?_
    obtain ⟨o, ho, rfl⟩ := List.mem_map.mp hv
    obtain ⟨hordered, hnumbers, -⟩ := h.options o ho
    exact JobOption.faithful_image (hordered.faithful (hnumbers.mono fun _ hn => hn.faithful))
  have hfaithful : ∀ v ∈ j.values, v.2.Faithful :=
    forall_values (P := Value.Faithful) (fun _ => trivial) hpayload hoptions trivial
  -- the options stand two containers deep, the payload one
  have hdepth : (Value.object j.values).depth ≤ maxDepth := by
    have hitems : (Value.array (j.options.map JobOption.image)).depth ≤ maxDepth - 1 := by
      have hitem : ∀ v ∈ j.options.map JobOption.image, v.depth ≤ maxDepth - 2 := by
        intro v hv
        -- an option is an object around its value
        obtain ⟨o, ho, rfl⟩ := List.mem_map.mp hv
        have hroom := (h.options o ho).2.2
        rw [JobOption.depth_image]
        omega
      exact Nat.add_le_add_left (Value.depthItems_le hitem) 1
    have hinside : ∀ v ∈ j.values, v.2.depth ≤ maxDepth - 1 := by
      refine forall_values (P := fun v => v.depth ≤ maxDepth - 1) (fun _ => Nat.zero_le _)
        (fun v hv => ?_) hitems (Nat.zero_le _)
      have hroom := (h.payload v hv).2.2
      omega
    exact Nat.add_le_add_left (Value.depthMembers_le hinside) 1
  rw [ofText, text_eq, text_of_spells (spells_members fun v hv => spells_document (hfaithful v hv))]
  -- what is read from the value is read from the text
  exact (agree_record_object alike_fields _ _ _ hfaithful maxDepth).2 hdepth _
    (read_values h.proper h.representable)

/-- A job that can be sent can be stored, if its year has four digits. -/
theorem Portable.storable {j : Job} (h : j.Portable)
    (hyear : 0 ≤ j.updatedAt.date.year ∧ j.updatedAt.date.year ≤ 9999) : j.Storable where
  payload v hv := by
    obtain ⟨hordered, hnumbers, hroom⟩ := h.payload v hv
    exact ⟨hordered.faithful (hnumbers.mono fun _ hn => hn.faithful), Nat.le_of_add_left_le hroom⟩
  options o ho := by
    obtain ⟨hordered, hnumbers, hroom⟩ := h.options o ho
    refine ⟨hordered.faithful (hnumbers.mono fun _ hn => hn.faithful), ?_⟩
    unfold maxDepth at hroom
    omega
  updatedAt := ⟨h.proper, hyear⟩

/-- A row that is read back is one of a year of four digits. -/
theorem year_of_row {j k : Job} (h : (Catalog.Row.ofJob j).job = .ok k) :
    0 ≤ j.updatedAt.date.year ∧ j.updatedAt.date.year ≤ 9999 := by
  cases htime : Time.Timestamp.strict? j.updatedAt.stored with
  | some a => exact Time.Timestamp.year_of_strict?_stored htime
  | none =>
    have hfault : Catalog.Row.readTime (Catalog.Row.ofJob j).updatedAt = .error .updatedAt := by
      simp only [Catalog.Row.readTime, Catalog.Row.ofJob, htime]
    unfold Catalog.Row.job at h
    rw [hfault] at h
    split at h <;> simp_all

/-- A job that is sent as JSON is read as itself but for a payload of `null`, which is read as none.
So the JSON text denotes the job just if its payload is not `null`, while the row that is stored of it
denotes the job, if its year has four digits, and never another one. -/
theorem roundTrip {j : Job} (h : j.Portable) :
    ofText j.text = .ok { j with payload := if j.payload = some .null then none else j.payload } ∧
      (ofText j.text = .ok j ↔ j.payload ≠ some .null) ∧
      (0 ≤ j.updatedAt.date.year ∧ j.updatedAt.date.year ≤ 9999 →
        (Catalog.Row.ofJob j).job = .ok j) ∧
      ∀ k, (Catalog.Row.ofJob j).job = .ok k → k = j := by
  have hread := ofText_text h
  have hrow (hyear : 0 ≤ j.updatedAt.date.year ∧ j.updatedAt.date.year ≤ 9999) :
      (Catalog.Row.ofJob j).job = .ok j := Catalog.Row.job_ofJob (h.storable hyear)
  refine ⟨hread, ?_, hrow, fun k hk => ?_⟩
  · rw [hread, Except.ok.injEq]
    exact withoutNull_eq_iff
  · -- a row that is read has a year of four digits, so it is read as its own job
    exact Except.ok.inj (hk.symm.trans (hrow (year_of_row hk)))

/-- A payload of `null` is lost on the way, while the row keeps it. -/
theorem roundTrip_null :
    let j : Job := ⟨"a", "mail", "0 9 * * *", some .null,
      [⟨"unique", .object [("k", .array [.number (.whole (-7)), .string "\x07é"])]⟩], true,
      ⟨59, 1500000000⟩⟩
    j.Portable ∧ ofText j.text = .ok { j with payload := none } ∧
      (Catalog.Row.ofJob j).job = .ok j := by
  intro j
  have hitems : ∀ v ∈ [Value.number (.whole (-7)), .string "\x07é"],
      v.Ordered ∧ v.Numbers Number.Integral :=
    List.forall_mem_cons.mpr ⟨⟨.number _, .number rfl⟩,
      List.forall_mem_singleton.mpr ⟨.string _, .string _⟩⟩
  have hoption : j.Portable := by
    refine ⟨?_, ?_, by decide, by decide⟩
    · rintro v hv
      obtain rfl : Value.null = v := Option.some.inj hv
      exact ⟨.null, .null, by decide⟩
    · refine List.forall_mem_singleton.mpr ⟨.object (by decide) ?_, .object ?_, by decide⟩
      · exact List.forall_mem_singleton.mpr (.array fun v hv => (hitems v hv).1)
      · exact List.forall_mem_singleton.mpr (.array fun v hv => (hitems v hv).2)
  obtain ⟨htext, -, hrow, -⟩ := roundTrip hoption
  exact ⟨hoption, htext, hrow (by decide +kernel)⟩

end Job
end Courier

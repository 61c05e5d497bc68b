import Courier.Proofs.Json.Doubles
import Courier.Proofs.Json.Reading

/-!
What a text says, written and read again.

A value that has been read from a text need not be read back as itself, since doubles are read
through two roundings.  But it is read back as some value.  Two things could be in the way.  Its
numbers are sound, so their texts are numerals that are not too large (`Number.Sound.legible`); and
it is nested no deeper than a text may be, since the parser counted the containers when it made the
value.

Both are proved by induction on the document that the text spells (`Document.induction`): what has
been read has its parts from the documents inside of it, with one container less for them
(`readable_of_value`).  Members that come more than once do not matter, as each member that stays
has been read (`Members.mem_of_mem_ofList`).

Main statements: what a text says is sound and within the nesting limit (`readable_of_parse`), and
so its own text says something, too (`exists_parse_text`).
-/

namespace Courier.Json

/-! ### Documents -/

/-- What holds of a container if it holds of all documents in it holds of all documents. -/
@[elab_as_elim]
theorem Document.induction {P : Document → Prop} (null : P .null) (bool : ∀ b, P (.bool b))
    (numeral : ∀ n, P (.numeral n)) (text : ∀ ps, P (.text ps))
    (array : ∀ ds stop, (∀ d ∈ ds, P d) → P (.array ds stop))
    (object : ∀ ms stop, (∀ m ∈ ms, P m.2) → P (.object ms stop)) (broken : ∀ b, P (.broken b)) :
    (d : Document) → P d
  | .null => null
  | .bool b => bool b
  | .numeral n => numeral n
  | .text ps => text ps
  | .array ds stop => array ds stop fun d _ =>
      induction null bool numeral text array object broken d
  | .object ms stop => object ms stop fun m _ =>
      induction null bool numeral text array object broken m.2
  | .broken b => broken b
termination_by d => sizeOf d
decreasing_by
  · have hlt := List.sizeOf_lt_of_mem ‹_›
    simp only [Document.array.sizeOf_spec]
    omega
  · have hlt := List.sizeOf_lt_of_mem ‹_›
    have hm : sizeOf m = 1 + sizeOf m.1 + sizeOf m.2 := rfl
    simp only [Document.object.sizeOf_spec]
    omega

/-- The items of an array are the values of its parts. -/
theorem forall_of_values {ds : List Document} {room : ℕ} {vs : List Value} {P : Value → Prop}
    (h : Document.value.values room ds = .ok vs)
    (hP : ∀ d ∈ ds, ∀ v, d.value room = .ok v → P v) : ∀ v ∈ vs, P v := by
  induction ds generalizing vs with
  | nil =>
    cases h
    simp
  | cons d ds ih =>
    obtain ⟨hd, hds⟩ := List.forall_mem_cons.mp hP
    rw [Document.value.values] at h
    obtain ⟨v, hv, h⟩ := bind_eq_ok.mp h
    obtain ⟨rest, hrest, h⟩ := bind_eq_ok.mp h
    cases h
    exact List.forall_mem_cons.mpr ⟨hd v hv, ih hrest hds⟩

theorem forall_of_valueMembers {ds : List (List Piece × Document)} {room : ℕ}
    {ms : List (String × Value)} {P : Value → Prop}
    (h : Document.value.valueMembers room ds = .ok ms)
    (hP : ∀ d ∈ ds, ∀ v, d.2.value room = .ok v → P v) : ∀ m ∈ ms, P m.2 := by
  induction ds generalizing ms with
  | nil =>
    cases h
    simp
  | cons d ds ih =>
    obtain ⟨hd, hds⟩ := List.forall_mem_cons.mp hP
    rw [Document.value.valueMembers] at h
    obtain ⟨_, _, h⟩ := bind_eq_ok.mp h
    obtain ⟨v, hv, h⟩ := bind_eq_ok.mp h
    obtain ⟨rest, hrest, h⟩ := bind_eq_ok.mp h
    cases h
    exact List.forall_mem_cons.mpr ⟨hd v hv, ih hrest hds⟩

/-- The members of a list of pairs are among the pairs. -/
theorem Members.mem_of_mem_insert {α : Type} {key : String} {value : α} {ms : List (String × α)}
    {m : String × α} (h : m ∈ insert key value ms) : m = (key, value) ∨ m ∈ ms := by
  induction ms with
  | nil => exact .inl (List.mem_singleton.mp h)
  | cons n ms ih =>
    obtain ⟨k, v⟩ := n
    rw [insert] at h
    split at h
    · exact List.mem_cons.mp h
    · split at h
      · exact (List.mem_cons.mp h).imp_right (List.mem_cons_of_mem _)
      · rcases List.mem_cons.mp h with rfl | h
        · exact .inr List.mem_cons_self
        · exact (ih h).imp_right (List.mem_cons_of_mem _)

theorem Members.mem_of_mem_ofList {α : Type} {pairs : List (String × α)} {m : String × α}
    (h : m ∈ ofList pairs) : m ∈ pairs := by
  induction pairs using List.reverseRecOn with
  | nil => exact h
  | append_singleton pairs p ih =>
    rw [ofList, List.foldl_append] at h
    rcases mem_of_mem_insert h with rfl | h
    · exact List.mem_append_right _ (List.mem_singleton_self _)
    · exact List.mem_append_left _ (ih h)

theorem Value.Numbers.mono {P Q : Number → Prop} {v : Value} (h : v.Numbers P)
    (himp : ∀ n, P n → Q n) : v.Numbers Q := by
  induction h with
  | null => exact .null
  | bool b => exact .bool b
  | number h => exact .number (himp _ h)
  | string s => exact .string s
  | array _ ih => exact .array ih
  | object _ ih => exact .object ih

/-! ### What a document says -/

/-- Whether a value can be what a text says where there is this much room: its numbers are sound,
and the containers fit. -/
structure Value.Readable (room : ℕ) (v : Value) : Prop where
  numbers : v.Numbers Number.Sound
  depth_le : v.depth ≤ room

theorem readable_of_value {d : Document} {room : ℕ} {v : Value} (h : d.value room = .ok v) :
    v.Readable room := by
  induction d using Document.induction generalizing room v with
  | null =>
    cases h
    exact ⟨.null, Nat.zero_le _⟩
  | bool b =>
    cases h
    exact ⟨.bool b, Nat.zero_le _⟩
  | numeral n =>
    unfold Document.value at h
    obtain ⟨number, hread, rfl⟩ := map_eq_ok.mp h
    unfold Numeral.read at hread
    split at hread
    · rename_i hvalue
      cases hread
      exact ⟨.number (Numeral.sound_of_value? hvalue), Nat.zero_le _⟩
    · cases hread
  | text ps =>
    unfold Document.value at h
    obtain ⟨s, -, rfl⟩ := map_eq_ok.mp h
    exact ⟨.string s, Nat.zero_le _⟩
  | array ds stop ih =>
    unfold Document.value at h
    obtain ⟨_, henter, h⟩ := bind_eq_ok.mp h
    obtain ⟨vs, hvs, h⟩ := bind_eq_ok.mp h
    obtain ⟨_, -, h⟩ := bind_eq_ok.mp h
    cases h
    -- the container that was entered took one place
    have hroom := pos_of_enter henter
    have hall := forall_of_values hvs fun d hd v hv => ih d hd hv
    refine ⟨.array fun v hv => (hall v hv).numbers, ?_⟩
    have hdepth := Value.depthItems_le fun v hv => (hall v hv).depth_le
    rw [Value.depth]
    omega
  | object ms stop ih =>
    unfold Document.value at h
    obtain ⟨_, henter, h⟩ := bind_eq_ok.mp h
    obtain ⟨vs, hvs, h⟩ := bind_eq_ok.mp h
    obtain ⟨_, -, h⟩ := bind_eq_ok.mp h
    cases h
    have hroom := pos_of_enter henter
    -- of members with one key only one stays, but all of them have been read
    have hpairs := forall_of_valueMembers hvs fun m hm v hv => ih m hm hv
    have hall : ∀ m ∈ Members.ofList vs, m.2.Readable (room - 1) :=
      fun m hm => hpairs m (Members.mem_of_mem_ofList hm)
    refine ⟨.object fun m hm => (hall m hm).numbers, ?_⟩
    have hdepth := Value.depthMembers_le fun m hm => (hall m hm).depth_le
    rw [Value.depth]
    omega
  | broken b => cases h

/-- What a text says is the value of a document. -/
theorem exists_document_of_parse {t : String} {v : Value} (h : parse t = .ok v) :
    ∃ d : Document, d.value maxDepth = .ok v := by
  rcases hread : Document.ofText t with ⟨d, more⟩
  rw [parse, Read.text, hread] at h
  obtain ⟨w, hw, h⟩ := bind_eq_ok.mp h
  cases more with
  | true => cases h
  | false =>
    cases h
    exact ⟨d, hw⟩

/-- What a text says is sound and within the nesting limit. -/
theorem readable_of_parse {t : String} {v : Value} (h : parse t = .ok v) : v.Readable maxDepth := by
  obtain ⟨d, hd⟩ := exists_document_of_parse h
  exact readable_of_value hd

/-! ### Reading again -/

theorem exists_values_of_forall {ds : List Document} {room : ℕ}
    (h : ∀ d ∈ ds, ∃ v, d.value room = .ok v) : ∃ vs, Document.value.values room ds = .ok vs := by
  induction ds with
  | nil => exact ⟨[], rfl⟩
  | cons d ds ih =>
    obtain ⟨⟨v, hv⟩, hds⟩ := List.forall_mem_cons.mp h
    obtain ⟨vs, hvs⟩ := ih hds
    exact ⟨v :: vs, by simp only [Document.value.values, hv, hvs, ok_bind]; rfl⟩

theorem exists_valueMembers_of_forall {ms : List (String × Value)} {room : ℕ}
    (h : ∀ m ∈ ms, ∃ v, m.2.document.value room = .ok v) :
    ∃ vs, Document.value.valueMembers room
      (ms.map fun m => (m.1.toList.map .char, m.2.document)) = .ok vs := by
  induction ms with
  | nil => exact ⟨[], rfl⟩
  | cons m ms ih =>
    obtain ⟨⟨v, hv⟩, hms⟩ := List.forall_mem_cons.mp h
    obtain ⟨vs, hvs⟩ := ih hms
    exact ⟨(m.1, v) :: vs, by
      simp only [List.map_cons, Document.value.valueMembers, spell_map_char, hv, hvs, ok_bind]; rfl⟩

/-- The document of a value has some value, if its numbers have and there is room. -/
theorem exists_value_document {v : Value} (h : v.Numbers Number.Legible) {room : ℕ}
    (hroom : v.depth ≤ room) : ∃ w, v.document.value room = .ok w := by
  induction h generalizing room with
  | null => exact ⟨_, rfl⟩
  | bool b => exact ⟨_, rfl⟩
  | number h =>
    obtain ⟨w, hw⟩ := h.value?_numeral
    exact ⟨.number w, by simp only [Value.document, Document.value, Numeral.read, hw, Except.map]⟩
  | string s =>
    exact ⟨.string s, by simp only [Value.document, Document.value, spell_map_char, Except.map]⟩
  | @array items _ ih =>
    -- the items have one container less to themselves
    have hinside : Value.depth.depthItems items ≤ room - 1 := by
      simp only [Value.depth] at hroom
      omega
    have hitems : ∀ d ∈ items.map Value.document, ∃ w, d.value (room - 1) = .ok w := by
      intro d hd
      obtain ⟨v, hv, rfl⟩ := List.mem_map.mp hd
      exact ih v hv (Value.depth_le_of_mem hinside v hv)
    obtain ⟨vs, hvs⟩ := exists_values_of_forall hitems
    exact ⟨.array vs, by
      simp only [Value.document, Document.value, Value.documentItems_eq_map, enter_eq_ok hroom, hvs,
        Option.map_none, orFail, ok_bind]
      rfl⟩
  | @object ms _ ih =>
    have hinside : Value.depth.depthMembers ms ≤ room - 1 := by
      simp only [Value.depth] at hroom
      omega
    obtain ⟨vs, hvs⟩ := exists_valueMembers_of_forall fun m hm =>
      ih m hm (Value.depth_le_of_mem_members hinside m hm)
    exact ⟨.object (Members.ofList vs), by
      simp only [Value.document, Document.value, Value.documentMembers_eq_map, enter_eq_ok hroom, hvs,
        Option.map_none, orFail, ok_bind]
      rfl⟩

/-- What a text says can be written and read again. -/
theorem exists_parse_text {t : String} {v : Value} (h : parse t = .ok v) :
    ∃ w, parse v.text = .ok w := by
  have hreadable := readable_of_parse h
  have hlegible := hreadable.numbers.mono fun n hn => hn.legible
  obtain ⟨w, hw⟩ := exists_value_document hlegible hreadable.depth_le
  refine ⟨w, ?_⟩
  rw [parse, text_of_spells (spells_of_legible hlegible)]
  exact hw

end Courier.Json

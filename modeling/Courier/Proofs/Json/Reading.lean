import Courier.Proofs.Json.RoundTrip
import Mathlib.Data.List.Forall2

/-!
Reading from a text and reading from a value.

Readers work on places of a text and on values.  A place is a document and the room that is left for
containers in it, so reading from it can fail where reading from the value does not.  Two results
agree (`Agree`) if what succeeds from the text succeeds from the value with the same result, and the
other way round where the nesting limit allows it.  Agreement is kept by `bind` and `map`, so that
readers can be followed step by step; the condition that all fits is weakened on the way
(`Agree.mono`), as every step needs only the parts that it looks at.

A reader of places tracks a reader of values if they agree on the document of every faithful value
(`Tracks`).  Errors may differ, and do, since a text tells where it was read.

A record is filled member by member from an object, or item by item from an array.  Members without
a field are passed over, and so are never checked for what they are (`skip_document`).  What every
filling of a field keeps holds of the draft at the end (`Read.exists_of_record`), whatever the
record is read from.

Main statements: the readers of scalars track one another, and so do readers of records whose fields
do (`tracks_record`); so a record that is read from the text of a value is what is read from the
value (`Tracks.text`).
-/

namespace Courier.Json

/-! ### Values of documents -/

theorem bind_eq_ok {ε α β : Type} {x : Except ε α} {f : α → Except ε β} {b : β} :
    x >>= f = .ok b ↔ ∃ a, x = .ok a ∧ f a = .ok b := by
  cases x <;> simp [bind, Except.bind]

theorem map_eq_ok {ε α β : Type} {x : Except ε α} {f : α → β} {b : β} :
    x.map f = .ok b ↔ ∃ a, x = .ok a ∧ f a = b := by
  cases x <;> simp [Except.map]

theorem ok_bind {ε α β : Type} (a : α) (f : α → Except ε β) : (Except.ok a >>= f) = f a := rfl

theorem map_bind_eq {ε α β γ : Type} (x : Except ε α) (f : α → Except ε β) (g : β → γ) :
    (x >>= f).map g = x >>= fun a => (f a).map g := by
  cases x <;> rfl

theorem pos_of_enter {room : Nat} (h : enter room = .ok ()) : 1 ≤ room := by
  unfold enter at h
  split at h
  · cases h
  · omega

theorem Value.depthItems_le {items : List Value} {room : Nat} (h : ∀ v ∈ items, v.depth ≤ room) :
    depth.depthItems items ≤ room := by
  induction items with
  | nil => exact Nat.zero_le _
  | cons v vs ih =>
    obtain ⟨hv, hvs⟩ := List.forall_mem_cons.mp h
    exact Nat.max_le.mpr ⟨hv, ih hvs⟩

theorem Value.depthMembers_le {ms : List (String × Value)} {room : Nat}
    (h : ∀ m ∈ ms, m.2.depth ≤ room) : depth.depthMembers ms ≤ room := by
  induction ms with
  | nil => exact Nat.zero_le _
  | cons m ms ih =>
    obtain ⟨hm, hms⟩ := List.forall_mem_cons.mp h
    exact Nat.max_le.mpr ⟨hm, ih hms⟩

theorem Value.faithful_object {ms : List (String × Value)}
    (hkeys : (ms.map Prod.fst).Pairwise (· < ·)) (h : ∀ m ∈ ms, m.2.Faithful) :
    (Value.object ms).Faithful := by
  refine ⟨hkeys, ?_⟩
  clear hkeys
  induction ms with
  | nil => trivial
  | cons m ms ih =>
    obtain ⟨hm, hms⟩ := List.forall_mem_cons.mp h
    exact ⟨hm, ih hms⟩

/-- Items that have values have them one by one. -/
theorem exists_of_values {ds : List Document} {room : Nat} {vs : List Value}
    (h : Document.value.values room ds = .ok vs) : ∀ d ∈ ds, ∃ v, d.value room = .ok v := by
  induction ds generalizing vs with
  | nil => simp
  | cons d ds ih =>
    rw [Document.value.values] at h
    obtain ⟨v, hv, h⟩ := bind_eq_ok.mp h
    obtain ⟨rest, hrest, -⟩ := bind_eq_ok.mp h
    exact List.forall_mem_cons.mpr ⟨⟨v, hv⟩, ih hrest⟩

theorem exists_of_valueMembers {ds : List (List Piece × Document)} {room : Nat}
    {ms : List (String × Value)} (h : Document.value.valueMembers room ds = .ok ms) :
    ∀ d ∈ ds, ∃ v, d.2.value room = .ok v := by
  induction ds generalizing ms with
  | nil => simp
  | cons d ds ih =>
    rw [Document.value.valueMembers] at h
    obtain ⟨_, _, h⟩ := bind_eq_ok.mp h
    obtain ⟨v, hv, h⟩ := bind_eq_ok.mp h
    obtain ⟨rest, hrest, -⟩ := bind_eq_ok.mp h
    exact List.forall_mem_cons.mpr ⟨⟨v, hv⟩, ih hrest⟩

/-- A document has no value without room for its containers. -/
theorem depth_le_of_value {v w : Value} {room : Nat} (h : v.document.value room = .ok w) :
    v.depth ≤ room := by
  induction v using Value.induction generalizing room w with
  | null => exact Nat.zero_le _
  | bool b => exact Nat.zero_le _
  | number n => exact Nat.zero_le _
  | string s => exact Nat.zero_le _
  | array items ih =>
    rw [Value.document, Document.value, Value.documentItems_eq_map] at h
    obtain ⟨_, henter, h⟩ := bind_eq_ok.mp h
    obtain ⟨vs, hvs, -⟩ := bind_eq_ok.mp h
    have hroom := pos_of_enter henter
    -- one container is this one, and the items have to fit in the rest
    have hitems : Value.depth.depthItems items ≤ room - 1 := by
      refine Value.depthItems_le fun v hv => ?_
      obtain ⟨w, hw⟩ := exists_of_values hvs _ (List.mem_map_of_mem hv)
      exact ih v hv hw
    rw [Value.depth]
    omega
  | object ms ih =>
    rw [Value.document, Document.value, Value.documentMembers_eq_map] at h
    obtain ⟨_, henter, h⟩ := bind_eq_ok.mp h
    obtain ⟨vs, hvs, -⟩ := bind_eq_ok.mp h
    have hroom := pos_of_enter henter
    -- likewise for the members
    have hms : Value.depth.depthMembers ms ≤ room - 1 := by
      refine Value.depthMembers_le fun m hm => ?_
      obtain ⟨w, hw⟩ := exists_of_valueMembers hvs _ (List.mem_map_of_mem hm)
      exact ih m hm hw
    rw [Value.depth]
    omega

/-- Only a lack of room keeps the document of a value from having its value. -/
theorem value_document_iff {v w : Value} (h : v.Faithful) {room : Nat} :
    v.document.value room = .ok w ↔ v.depth ≤ room ∧ v = w := by
  constructor
  · intro hw
    have hroom := depth_le_of_value hw
    rw [value_document h hroom] at hw
    exact ⟨hroom, Except.ok.inj hw⟩
  · rintro ⟨hroom, rfl⟩
    exact value_document h hroom

/-- What is passed over is not checked, except for its being whole. -/
theorem skip_document (v : Value) : v.document.skip = none := by
  have hitems (vs : List Value) (h : ∀ v ∈ vs, v.document.skip = none) :
      Document.skip.skipItems (vs.map Value.document) = none := by
    induction vs with
    | nil => rfl
    | cons v vs ih =>
      have hv := h v List.mem_cons_self
      have hvs := ih fun w hw => h w (List.mem_cons_of_mem v hw)
      simp only [List.map_cons, Document.skip.skipItems, hv, hvs, Option.or_none]
  have hmembers (ms : List (String × Value)) (h : ∀ m ∈ ms, m.2.document.skip = none) :
      Document.skip.skipMembers (ms.map fun m => (m.1.toList.map .char, m.2.document)) = none := by
    induction ms with
    | nil => rfl
    | cons m ms ih =>
      have hm := h m List.mem_cons_self
      have hms := ih fun n hn => h n (List.mem_cons_of_mem m hn)
      simp only [List.map_cons, Document.skip.skipMembers, hm, hms, Option.or_none]
  induction v using Value.induction with
  | null => rfl
  | bool b => rfl
  | number n => rfl
  | string s => rfl
  | array items ih =>
    simp only [Value.document, Document.skip, Value.documentItems_eq_map, hitems items ih,
      Option.map_none, Option.or_none]
  | object ms ih =>
    simp only [Value.document, Document.skip, Value.documentMembers_eq_map, hmembers ms ih,
      Option.map_none, Option.or_none]

/-! ### Results that agree -/

/-- Whether a result that stands on the left stands on the right, and the other way round if there
is room for it. -/
def Agree {α : Type} (fits : Prop) (x y : Except DecodeError α) : Prop :=
  (∀ a, x = .ok a → y = .ok a) ∧ (fits → ∀ a, y = .ok a → x = .ok a)

namespace Agree

variable {α β : Type} {fits : Prop}

theorem refl (x : Except DecodeError α) : Agree fits x x := ⟨fun _ h => h, fun _ _ h => h⟩

theorem error (e e' : DecodeError) : Agree fits (.error e : Except DecodeError α) (.error e') :=
  ⟨nofun, fun _ => nofun⟩

theorem mono {fits' : Prop} {x y : Except DecodeError α} (h : Agree fits x y)
    (himp : fits' → fits) : Agree fits' x y :=
  ⟨h.1, fun hfits => h.2 (himp hfits)⟩

/-- Two steps after another, when the first one on the right still has to be carried over. -/
theorem bind_map {γ : Type} {x : Except DecodeError β} {y : Except DecodeError α} (r : α → β)
    {f : β → Except DecodeError γ} {g : α → Except DecodeError γ} (h : Agree fits x (y.map r))
    (hfg : ∀ a, Agree fits (f (r a)) (g a)) : Agree fits (x >>= f) (y >>= g) := by
  rcases y with e | a
  · rcases x with e' | b
    · exact error e' e
    · cases h.1 b rfl
  · rcases x with e | b
    · refine ⟨nofun, fun hfits => ?_⟩
      cases h.2 hfits (r a) rfl
    · obtain rfl : r a = b := Except.ok.inj (h.1 b rfl)
      exact hfg a

theorem bind {x y : Except DecodeError α} {f g : α → Except DecodeError β} (h : Agree fits x y)
    (hfg : ∀ a, Agree fits (f a) (g a)) : Agree fits (x >>= f) (y >>= g) := by
  refine bind_map id ?_ hfg
  cases y <;> exact h

/-- A check on the left that passes on the right. -/
theorem check {x : Except DecodeError Unit} {f : Unit → Except DecodeError α}
    {y : Except DecodeError α} (h : Agree fits x (.ok ())) (hf : Agree fits (f ()) y) :
    Agree fits (x >>= f) y :=
  bind (g := fun _ => y) h fun _ => hf

theorem map {x y : Except DecodeError α} (f : α → β) (h : Agree fits x y) :
    Agree fits (x.map f) (y.map f) :=
  h.bind fun a => refl (.ok (f a))

end Agree

/-- Whether all parts of a container have a property. -/
def View.All {S : Type} (P : S → Prop) : View S → Prop
  | .array _ items _ => ∀ s ∈ items, P s
  | .object _ members _ => ∀ m ∈ members, P m.2
  | _ => True

/-- Whether a reader of places reads from the document of a value what the other one reads from the
value. -/
def Tracks {α : Type} (atPlace : Place → Except DecodeError α)
    (atValue : Value → Except DecodeError α) : Prop :=
  ∀ v : Value, v.Faithful → ∀ room,
    Agree (v.depth ≤ room) (atPlace ⟨room, v.document⟩) (atValue v)

/-- An array is entered, and its items have room, if the array has. -/
theorem agree_enter_items (items : List Value) (room : Nat) :
    Agree ((Value.array items).depth ≤ room) (enter room) (.ok ()) ∧
      ((Value.array items).depth ≤ room → ∀ v ∈ items, v.depth ≤ room - 1) := by
  refine ⟨⟨fun _ _ => rfl, fun hroom _ _ => enter_eq_ok hroom⟩, fun hroom => ?_⟩
  rw [Value.depth] at hroom
  exact Value.depth_le_of_mem (by omega)

theorem agree_enter_members (ms : List (String × Value)) (room : Nat) :
    Agree ((Value.object ms).depth ≤ room) (enter room) (.ok ()) ∧
      ((Value.object ms).depth ≤ room → ∀ m ∈ ms, m.2.depth ≤ room - 1) := by
  refine ⟨⟨fun _ _ => rfl, fun hroom _ _ => enter_eq_ok hroom⟩, fun hroom => ?_⟩
  rw [Value.depth] at hroom
  exact Value.depth_le_of_mem_members (by omega)

theorem view_number {n : Number} (h : n.Faithful) (room : Nat) :
    Source.view (⟨room, (Value.number n).document⟩ : Place) = .ok (.number n) := by
  simp only [Source.view, Value.document, Numeral.read, (Number.Faithful.numeral h).2, Except.map]

theorem view_string (s : String) (room : Nat) :
    Source.view (⟨room, (Value.string s).document⟩ : Place) = .ok (.string s) := by
  simp only [Source.view, Value.document, spell_map_char, Except.map]

theorem view_array (items : List Value) (room : Nat) :
    Source.view (⟨room, (Value.array items).document⟩ : Place) =
      .ok (.array (enter room) (items.map fun v => ⟨room - 1, v.document⟩) none) := by
  simp only [Source.view, Value.document, Value.documentItems_eq_map, List.map_map,
    Function.comp_def, Option.map_none]

theorem view_object (ms : List (String × Value)) (room : Nat) :
    Source.view (⟨room, (Value.object ms).document⟩ : Place) =
      .ok (.object (enter room) (ms.map fun m => (.ok m.1, ⟨room - 1, m.2.document⟩)) none) := by
  simp only [Source.view, Value.document, Value.documentMembers_eq_map, List.map_map,
    Function.comp_def, spell_map_char, Option.map_none]

theorem skip_place (v : Value) (room : Nat) :
    Source.skip (⟨room, v.document⟩ : Place) = .ok () := by
  simp only [Source.skip, skip_document, Option.map_none, orFail]

namespace Tracks

variable {α β : Type} {atPlace : Place → Except DecodeError α}
  {atValue : Value → Except DecodeError α}

theorem map (f : α → β) (h : Tracks atPlace atValue) :
    Tracks (fun s => (atPlace s).map f) fun s => (atValue s).map f :=
  fun v hv room => (h v hv room).map f

theorem string : Tracks Read.string Read.string := by
  intro v hv room
  unfold Read.string
  -- everything but a text is an error on both sides
  cases v with
  | number n =>
    rw [view_number hv]
    exact .error _ _
  | string s =>
    rw [view_string]
    exact .refl _
  | array items =>
    rw [view_array]
    exact .error _ _
  | object ms =>
    rw [view_object]
    exact .error _ _
  | _ => exact .error _ _

theorem bool : Tracks Read.bool Read.bool := by
  intro v hv room
  unfold Read.bool
  -- only a truth value is read
  cases v with
  | bool b => exact .refl _
  | number n =>
    rw [view_number hv]
    exact .error _ _
  | string s =>
    rw [view_string]
    exact .error _ _
  | array items =>
    rw [view_array]
    exact .error _ _
  | object ms =>
    rw [view_object]
    exact .error _ _
  | null => exact .error _ _

theorem int64 : Tracks Read.int64 Read.int64 := by
  intro v hv room
  unfold Read.int64
  -- only a whole number is read
  cases v with
  | number n =>
    rw [view_number hv]
    cases n with
    | whole n => exact .refl _
    | real x => exact .error _ _
  | string s =>
    rw [view_string]
    exact .error _ _
  | array items =>
    rw [view_array]
    exact .error _ _
  | object ms =>
    rw [view_object]
    exact .error _ _
  | _ => exact .error _ _

theorem value : Tracks Source.value Source.value := by
  intro v hv room
  refine ⟨fun w hw => ?_, fun hroom w hw => ?_⟩
  · obtain ⟨-, rfl⟩ := (value_document_iff hv).mp hw
    rfl
  · obtain rfl : v = w := Except.ok.inj hw
    exact value_document hv hroom

theorem optional (h : Tracks atPlace atValue) :
    Tracks (Read.optional atPlace) (Read.optional atValue) := by
  intro v hv room
  have hread := (h v hv room).bind fun a => Agree.refl (.ok (some a))
  unfold Read.optional
  -- only `null` is not passed on to the reader
  cases v with
  | null => exact .refl _
  | bool b => exact hread
  | number n =>
    rw [view_number hv]
    exact hread
  | string s =>
    rw [view_string]
    exact hread
  | array items =>
    rw [view_array]
    exact hread
  | object ms =>
    rw [view_object]
    exact hread

end Tracks

/-! ### Records -/

open Read

variable {σ α : Type}

/-- Whether a field is filled alike from places and from values. -/
structure Alike (f : Field Place σ) (g : Field Value σ) : Prop where
  name : f.name = g.name
  filled : f.filled = g.filled
  fill : ∀ draft, Tracks (fun s => f.fill s draft) fun s => g.fill s draft

section Fields

variable {fields : List (Field Place σ)} {fields' : List (Field Value σ)}
  (h : List.Forall₂ Alike fields fields')

include h

theorem find?_alike (key : String) :
    (fields.find? (fun f => f.name == key) = none ∧ fields'.find? (fun f => f.name == key) = none) ∨
      ∃ f g, Alike f g ∧ fields.find? (fun f => f.name == key) = some f ∧
        fields'.find? (fun f => f.name == key) = some g := by
  induction h with
  | nil => exact .inl ⟨rfl, rfl⟩
  | @cons f g fs gs hfg _ ih =>
    by_cases hkey : g.name == key
    · refine .inr ⟨f, g, hfg, ?_, ?_⟩
      · exact List.find?_cons_of_pos (by rwa [hfg.name])
      · exact List.find?_cons_of_pos hkey
    · simpa only [List.find?_cons, hfg.name, hkey] using ih

theorem agree_fillNamed (room : Nat) {ms : List (String × Value)}
    (hms : ∀ m ∈ ms, m.2.Faithful) (draft : σ) :
    Agree (∀ m ∈ ms, m.2.depth ≤ room)
      (fillNamed fields (ms.map fun m => (.ok m.1, ⟨room, m.2.document⟩)) draft)
      (fillNamed fields' (ms.map fun m => (.ok m.1, m.2)) draft) := by
  induction ms generalizing draft with
  | nil => exact .refl _
  | cons m ms ih =>
    obtain ⟨hm, hms⟩ := List.forall_mem_cons.mp hms
    have hrest (draft : σ) := (ih hms draft).mono
      fun (hfits : ∀ n ∈ m :: ms, n.2.depth ≤ room) n hn => hfits n (List.mem_cons_of_mem m hn)
    simp only [List.map_cons, fillNamed]
    refine .bind (.refl _) fun key => ?_
    rcases find?_alike h key with ⟨hnone, hnone'⟩ | ⟨f, g, hfg, hf, hg⟩
    · -- a member without a field is passed over, and nothing in it can fail
      rw [hnone, hnone', skip_place]
      exact .bind (.refl _) fun _ => hrest draft
    · -- a field that is filled a second time is an error on both sides
      rw [hf, hg]
      simp only [hfg.filled]
      split
      · exact .error _ _
      · exact .bind ((hfg.fill draft m.2 hm room).mono fun hfits => hfits m List.mem_cons_self)
          hrest

theorem agree_fillPlaced (room : Nat) {items : List Value} (hitems : ∀ v ∈ items, v.Faithful)
    (draft : σ) :
    Agree (∀ v ∈ items, v.depth ≤ room)
      (fillPlaced fields (items.map fun v => ⟨room, v.document⟩) draft)
      ((fillPlaced fields' items draft).map fun p =>
        (p.1.map fun v => ⟨room, v.document⟩, p.2)) := by
  induction h generalizing items draft with
  | nil =>
    -- items that are left over are given back on both sides
    cases items with
    | nil => exact .refl _
    | cons v vs => exact .refl _
  | @cons f g fs gs hfg _ ih =>
    cases items with
    | nil => exact .refl _
    | cons v vs =>
      obtain ⟨hv, hvs⟩ := List.forall_mem_cons.mp hitems
      have hfill := (hfg.fill draft v hv room).mono
        fun (hfits : ∀ w ∈ v :: vs, w.depth ≤ room) => hfits v List.mem_cons_self
      have hrest (draft : σ) := (ih hvs draft).mono
        fun (hfits : ∀ w ∈ v :: vs, w.depth ≤ room) w hw => hfits w (List.mem_cons_of_mem v hw)
      rw [List.map_cons, fillPlaced, fillPlaced, map_bind_eq]
      exact hfill.bind hrest

/-- Objects are read alike, whatever the order of their members. -/
theorem agree_record_object (article : String) (draft : σ)
    (finish : (String → Nat → DecodeError) → σ → Except DecodeError α)
    {ms : List (String × Value)} (hms : ∀ m ∈ ms, m.2.Faithful) (room : Nat) :
    Agree ((Value.object ms).depth ≤ room)
      (record article fields draft finish (⟨room, (Value.object ms).document⟩ : Place))
      (record article fields' draft finish (Value.object ms)) := by
  have hroom := agree_enter_members ms room
  unfold record
  rw [view_object, h.length_eq]
  simp only [Source.view, ok_bind]
  refine .check hroom.1 (.bind ((agree_fillNamed h _ hms draft).mono hroom.2) fun _ => ?_)
  exact .refl _

theorem tracks_record (article : String) (draft : σ)
    (finish : (String → Nat → DecodeError) → σ → Except DecodeError α) :
    Tracks (record article fields draft finish) (record article fields' draft finish) := by
  intro v hv room
  -- nothing but arrays and objects is a record
  cases v with
  | number n =>
    unfold record
    rw [view_number hv]
    exact .error _ _
  | string s =>
    unfold record
    rw [view_string]
    exact .error _ _
  | array items =>
    have hroom := agree_enter_items items room
    unfold record
    rw [view_array, h.length_eq]
    simp only [Source.view, ok_bind, List.length_map]
    refine .check hroom.1 (.bind_map _ ((agree_fillPlaced h _
      (Value.faithful_of_mem hv) draft).mono hroom.2) fun p => ?_)
    simp only [orFail, ok_bind, List.isEmpty_map]
    -- items that are left over are too many on both sides
    split <;> refine .bind (.refl _) fun a => ?_
    all_goals
      split
      · exact .error _ _
      · exact .refl _
  | object ms =>
    exact agree_record_object h article draft finish (Value.faithful_of_mem_members hv.2) room
  | _ => exact .error _ _

end Fields

/-- What is read before the end of an array is the result, if nothing goes wrong there. -/
theorem ok_of_closing {x : Except DecodeError α} {surplus : Bool} {e : DecodeError}
    {close : Option DecodeError} {a : α}
    (h : (do
      let a ← x
      if surplus then throw e
      orFail close
      return a) = Except.ok a) : x = .ok a := by
  obtain ⟨b, hb, h⟩ := bind_eq_ok.mp h
  split at h
  · cases h
  · obtain ⟨_, -, h⟩ := bind_eq_ok.mp h
    obtain rfl : b = a := Except.ok.inj h
    exact hb

section Drafts

variable {S : Type} {Part : S → Prop} {Inv : σ → Prop} {fields : List (Field S σ)}
  (hfill : ∀ f ∈ fields, ∀ s, Part s → ∀ d d', Inv d → f.fill s d = .ok d' → Inv d')

include hfill

theorem inv_fillNamed [Source S] {members : List (Except DecodeError String × S)}
    (hparts : ∀ m ∈ members, Part m.2) {draft draft' : σ} (hdraft : Inv draft)
    (h : fillNamed fields members draft = .ok draft') : Inv draft' := by
  induction members generalizing draft with
  | nil =>
    obtain rfl := Except.ok.inj h
    exact hdraft
  | cons m ms ih =>
    obtain ⟨hm, hms⟩ := List.forall_mem_cons.mp hparts
    rw [fillNamed] at h
    obtain ⟨key, -, h⟩ := bind_eq_ok.mp h
    rcases hfind : fields.find? (fun f => f.name == key) with - | f <;> rw [hfind] at h
    · obtain ⟨_, -, h⟩ := bind_eq_ok.mp h
      -- a member without a field leaves the draft as it is
      exact ih hms hdraft h
    · dsimp only at h
      split at h
      · cases h
      · obtain ⟨d, hd, h⟩ := bind_eq_ok.mp h
        exact ih hms (hfill f (List.mem_of_find?_eq_some hfind) m.2 hm _ _ hdraft hd) h

theorem inv_fillPlaced {items rest : List S} (hparts : ∀ s ∈ items, Part s) {draft draft' : σ}
    (hdraft : Inv draft) (h : fillPlaced fields items draft = .ok (rest, draft')) :
    Inv draft' := by
  induction fields generalizing items draft with
  | nil =>
    obtain ⟨-, rfl⟩ := Prod.mk.inj (Except.ok.inj h)
    exact hdraft
  | cons f fs ih =>
    cases items with
    | nil =>
      obtain ⟨-, rfl⟩ := Prod.mk.inj (Except.ok.inj h)
      exact hdraft
    | cons s ss =>
      obtain ⟨hs, hss⟩ := List.forall_mem_cons.mp hparts
      rw [fillPlaced] at h
      obtain ⟨d, hd, h⟩ := bind_eq_ok.mp h
      exact ih (fun g hg => hfill g (List.mem_cons_of_mem f hg)) hss
        (hfill f List.mem_cons_self s hs _ _ hdraft hd) h

/-- What every filling of a field keeps holds of the draft that a record is made of. -/
theorem exists_of_record [Source S] {s : S} {view : View S} (hview : Source.view s = .ok view)
    (hparts : view.All Part) {article : String} {draft : σ} (hdraft : Inv draft)
    {finish : (String → Nat → DecodeError) → σ → Except DecodeError α} {a : α}
    (h : record article fields draft finish s = .ok a) :
    ∃ missing d, Inv d ∧ finish missing d = .ok a := by
  unfold record at h
  rw [hview, ok_bind] at h
  cases view with
  | object entered members close =>
    obtain ⟨_, -, h⟩ := bind_eq_ok.mp h
    obtain ⟨d, hd, h⟩ := bind_eq_ok.mp h
    obtain ⟨_, -, h⟩ := bind_eq_ok.mp h
    exact ⟨_, d, inv_fillNamed hfill hparts hdraft hd, h⟩
  | array entered items close =>
    obtain ⟨_, -, h⟩ := bind_eq_ok.mp h
    obtain ⟨⟨rest, d⟩, hd, h⟩ := bind_eq_ok.mp h
    have hd := inv_fillPlaced hfill hparts hdraft hd
    dsimp only at h
    split at h
    · obtain ⟨_, -, h⟩ := bind_eq_ok.mp h
      exact ⟨_, d, hd, ok_of_closing h⟩
    · exact ⟨_, d, hd, ok_of_closing h⟩
  | _ => cases h

end Drafts

/-! ### Texts -/

/-- A text that spells the document of a value is read at its place. -/
theorem text_of_spells {v : Value} (h : Spells v.print v.document)
    (atPlace : Place → Except DecodeError α) :
    Read.text atPlace v.text = atPlace ⟨maxDepth, v.document⟩ := by
  rw [Read.text, Value.text, h.ofText]
  cases hread : atPlace ⟨maxDepth, v.document⟩ <;> simp [hread, bind, Except.bind, pure, Except.pure]

/-- What is read from the text of a value is read from the value. -/
theorem Tracks.text {atPlace : Place → Except DecodeError α}
    {atValue : Value → Except DecodeError α} (h : Tracks atPlace atValue) {v : Value}
    (hv : v.Faithful) :
    Agree (v.depth ≤ maxDepth) (Read.text atPlace v.text) (atValue v) := by
  rw [text_of_spells (spells_document hv)]
  exact h v hv maxDepth

end Courier.Json

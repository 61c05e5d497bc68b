import Courier.Message
import Courier.Proofs.Json.Reading

/-!
Envelopes read back.

A message is portable if everything in it can be written and read again: its chat fits in 64 bits,
its data is faithful, and the data leaves room for the container around it.  The text of the message
is that of an object whose members are the fields that are there (`text_eq`).  Reading from a text
is reading from a value (`tracks_read`), and so it is enough to read a message from the value of its
own members (`read_values`).

The other way round it has to be shown that what has been read can be written.  A message is read by
filling a draft field by field, from places that may come in any order and more than once.  What
holds of the draft all the time is that its chat and its data, as far as they are there, are as they
should be (`Draft.Holds`).  What the data should be is left open (`P`), since other modules ask for
other things.

Main statements: the text of a portable message is read back as the message (`Message.ofText_text`);
reading a message from the text of a value is reading it from the value (`Message.tracks_read`), and
what is read from such a text is portable (`Message.portable_of_ofText`).
-/

namespace Courier.Message

open Json

/-! ### From a message to its text and back -/

/-- Whether a message can be written and read again: the chat is a signed number of 64 bits, the
data is faithful, and there is room for it inside of the envelope. -/
structure Portable (m : Message) : Prop where
  chatId : ∀ c, m.chatId = some c → -(bound63 : Int) ≤ c ∧ c < bound63
  data : m.data.Faithful
  depth : 1 + m.data.depth ≤ maxDepth

/-- The members of a message as written, with the values that they spell. -/
def values (m : Message) : List (String × Value) :=
  (match m.chatId with
    | some c => [("chat_id", .number (.whole c))]
    | none => []) ++
  (match m.imageUrl with
    | some u => [("image_url", .string u)]
    | none => []) ++
  [("view", .string m.view), ("data", m.data), ("delay", .bool m.delay)]

theorem members_eq (m : Message) : m.members = m.values.map fun v => (v.1, v.2.print) := by
  unfold members values
  cases m.chatId <;> cases m.imageUrl <;> rfl

theorem isExact_of_int64 {c : Int} (h : -(bound63 : Int) ≤ c ∧ c < bound63) :
    isExact c = true := by
  have hbound : bound63 < bound64 := by decide
  simp only [isExact, Bool.and_eq_true, decide_eq_true_eq]
  omega

theorem text_eq (m : Message) : m.text = (Value.object m.values).text := by
  rw [text, members_eq, Value.text, Value.print, Value.printMembers_eq_map]

/-- What holds of every field that is there holds of all members. -/
theorem forall_values {P : Value → Prop} {m : Message}
    (hchat : ∀ c, m.chatId = some c → P (.number (.whole c)))
    (himage : ∀ u, m.imageUrl = some u → P (.string u)) (hview : P (.string m.view))
    (hdata : P m.data) (hdelay : P (.bool m.delay)) : ∀ v ∈ m.values, P v.2 := by
  unfold values
  cases hc : m.chatId <;> cases hu : m.imageUrl <;> simp_all

/-- The members of a message are read as the message. -/
theorem read_values {m : Message}
    (h : ∀ c, m.chatId = some c → -(bound63 : Int) ≤ c ∧ c < bound63) :
    read (Value.object m.values) = .ok m := by
  obtain ⟨chat, image, view, data, delay⟩ := m
  have hstring (s : String) : Read.string (Value.string s) = .ok s := rfl
  have himage (u : String) : Read.optional Read.string (Value.string u) = .ok (some u) := rfl
  have hdata (v : Value) : Source.value v = .ok v := rfl
  have hdelay (b : Bool) : Read.bool (Value.bool b) = .ok b := rfl
  have hobject (ms : List (String × Value)) : Source.view (Value.object ms) =
      .ok (.object (.ok ()) (ms.map fun m => (.ok m.1, m.2)) none) := rfl
  -- with a chat and without, with an image and without, the fields are filled in order
  cases chat with
  | none =>
    cases image <;>
      simp [read, Read.record, values, hobject, Read.fillNamed, fields, himage, hstring, hdata,
        hdelay, Draft.finish, orFail, bind, Except.bind, Except.map]
  | some c =>
    have hchat : Read.optional Read.int64 (Value.number (.whole c)) = .ok (some c) := by
      rw [Read.optional, show Read.int64 (Value.number (.whole c)) = .ok c from if_pos (h c rfl)]
      rfl
    cases image <;>
      simp [read, Read.record, values, hobject, Read.fillNamed, fields, hchat, himage, hstring,
        hdata, hdelay, Draft.finish, orFail, bind, Except.bind, Except.map]

/-! ### From a text to a message -/

theorem alike_fields : List.Forall₂ Alike (fields (S := Place)) (fields (S := Value)) := by
  refine .cons ⟨rfl, rfl, fun d => ?_⟩ (.cons ⟨rfl, rfl, fun d => ?_⟩ (.cons ⟨rfl, rfl, fun d => ?_⟩
    (.cons ⟨rfl, rfl, fun d => ?_⟩ (.cons ⟨rfl, rfl, fun d => ?_⟩ .nil))))
  · exact Tracks.int64.optional.map _
  · exact Tracks.string.optional.map _
  · exact Tracks.string.map _
  · exact Tracks.value.map _
  · exact Tracks.bool.map _

/-- Reading a message from a text is reading it from a value. -/
theorem tracks_read : Tracks (read (S := Place)) (read (S := Value)) :=
  tracks_record alike_fields _ _ _

/-- The text of a portable message is read back as the message. -/
theorem ofText_text {m : Message} (h : m.Portable) : ofText m.text = .ok m := by
  have hfaithful : ∀ v ∈ m.values, v.2.Faithful :=
    forall_values (P := Value.Faithful) (fun c hc => isExact_of_int64 (h.chatId c hc))
      (fun _ _ => trivial) trivial h.data
      trivial
  have hdepth : (Value.object m.values).depth ≤ maxDepth := by
    -- the data is the only member with containers in it
    have hinside : ∀ v ∈ m.values, v.2.depth ≤ m.data.depth :=
      forall_values (P := fun v => v.depth ≤ m.data.depth) (fun _ _ => Nat.zero_le _)
        (fun _ _ => Nat.zero_le _) (Nat.zero_le _) (Nat.le_refl _) (Nat.zero_le _)
    exact Nat.le_trans (Nat.add_le_add_left (Value.depthMembers_le hinside) 1) h.depth
  rw [ofText, text_eq, text_of_spells (spells_members fun v hv => spells_document (hfaithful v hv))]
  exact (agree_record_object alike_fields _ _ _ hfaithful maxDepth).2 hdepth m
    (read_values h.chatId)

/-! ### What is read from a text -/

/-- Whether the fields that have been read are in order: the chat is a signed number of 64 bits, and
the data has a property. -/
structure Draft.Holds (P : Value → Prop) (d : Draft) : Prop where
  chatId : ∀ c, d.chatId = some (some c) → -(bound63 : Int) ≤ c ∧ c < bound63
  data : ∀ v, d.data = some v → P v

/-- Whether the fields that have been read can be written again. -/
structure Draft.Portable (d : Draft) : Prop where
  chatId : ∀ c, d.chatId = some (some c) → -(bound63 : Int) ≤ c ∧ c < bound63
  data : ∀ v, d.data = some v → v.Faithful ∧ 1 + v.depth ≤ maxDepth

theorem bounds_of_int64 {s : Place} {c : Int} (h : Read.int64 s = .ok c) :
    -(bound63 : Int) ≤ c ∧ c < bound63 := by
  unfold Read.int64 at h
  obtain ⟨view, -, h⟩ := bind_eq_ok.mp h
  split at h
  · split at h
    · rename_i hc
      obtain rfl := Except.ok.inj h
      exact hc
    · cases h
  · cases h

theorem exists_of_optional {α : Type} {read : Place → Except DecodeError α} {s : Place} {a : α}
    (h : Read.optional read s = .ok (some a)) : read s = .ok a := by
  unfold Read.optional at h
  obtain ⟨view, -, h⟩ := bind_eq_ok.mp h
  split at h
  · cases h
  · obtain ⟨b, hb, h⟩ := bind_eq_ok.mp h
    obtain rfl : b = a := Option.some.inj (Except.ok.inj h)
    exact hb

namespace Draft.Holds

variable {P : Value → Prop} {d d' : Draft}

/-- A field that is filled from a place keeps the fields in order, if the value there has the
property of the data. -/
theorem fill (hd : d.Holds P) {f : Read.Field Place Draft} (hf : f ∈ fields) {s : Place}
    (hs : ∀ v, Source.value s = .ok v → P v) (h : f.fill s d = .ok d') : d'.Holds P := by
  simp only [fields, List.mem_cons, List.not_mem_nil, or_false] at hf
  -- only the chat and the data have anything to show
  rcases hf with rfl | rfl | rfl | rfl | rfl <;> obtain ⟨x, hx, rfl⟩ := map_eq_ok.mp h
  -- the chat, which is read as a number of 64 bits
  case inl =>
    refine ⟨fun c hc => ?_, hd.data⟩
    obtain rfl : x = some c := Option.some.inj hc
    exact bounds_of_int64 (exists_of_optional hx)
  -- the data
  case inr.inr.inr.inl =>
    refine ⟨hd.chatId, fun w hw => ?_⟩
    obtain rfl : x = w := Option.some.inj hw
    exact hs x hx
  all_goals exact ⟨hd.chatId, hd.data⟩

/-- The message of fields in order has its chat and its data in order. -/
theorem finish (hd : d.Holds P) (hnull : P .null) {missing : String → Nat → DecodeError}
    {m : Message} (h : d.finish missing = .ok m) :
    (∀ c, m.chatId = some c → -(bound63 : Int) ≤ c ∧ c < bound63) ∧ P m.data := by
  unfold Draft.finish at h
  split at h
  · cases h
  · obtain rfl := Except.ok.inj h
    constructor
    · intro c hc
      rcases hchat : d.chatId with - | chat
      · simp [hchat] at hc
      · obtain rfl : chat = some c := by simpa [hchat] using hc
        exact hd.chatId c hchat
    · -- data that is not there is `null`
      rcases hdata : d.data with - | v
      · exact hnull
      · exact hd.data v hdata

end Draft.Holds

theorem Draft.Portable.holds {d : Draft} (hd : d.Portable) :
    d.Holds fun v => v.Faithful ∧ 1 + v.depth ≤ maxDepth :=
  ⟨hd.chatId, hd.data⟩

/-- A field that is filled from inside of an envelope can be written again. -/
theorem Draft.Portable.fill {f : Read.Field Place Draft} (hf : f ∈ fields) {v : Value}
    (hv : v.Faithful) {d d' : Draft} (hd : d.Portable)
    (h : f.fill ⟨maxDepth - 1, v.document⟩ d = .ok d') : d'.Portable := by
  have hholds : d'.Holds fun v => v.Faithful ∧ 1 + v.depth ≤ maxDepth := by
    refine hd.holds.fill hf (fun w hw => ?_) h
    obtain ⟨hdepth, rfl⟩ := (value_document_iff hv).mp hw
    exact ⟨hv, Nat.add_le_add_left hdepth 1⟩
  exact ⟨hholds.chatId, hholds.data⟩

theorem Draft.Portable.finish {d : Draft} (hd : d.Portable) {missing : String → Nat → DecodeError}
    {m : Message} (h : d.finish missing = .ok m) : m.Portable := by
  obtain ⟨hchat, hdata, hdepth⟩ :=
    hd.holds.finish ⟨trivial, Nat.le_of_ble_eq_true rfl⟩ h
  exact ⟨hchat, hdata, hdepth⟩

end Courier.Message

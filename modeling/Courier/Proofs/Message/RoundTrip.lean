import Courier.Bus
import Courier.Proofs.Json.Reread
import Courier.Proofs.Message.Envelope

/-!
Envelopes sent and read back.

A message is proper if it is one that can be held at all and that is not nested too deeply
(`Proper`).  Its numbers are another matter: doubles need not be read back as themselves, so the
numbers in the data are to be whole ones of 64 bits (`Number.Integral`).  With these a proper
message is portable (`Proper.portable`), and then its text is read back.

What is read from a text is proper in whichever form the text has it (`proper_of_ofText`).  The
members of every object that has been read are in order, whatever their order and repetitions in the
text (`ordered_of_value`), and the data is nested at least one level less deep than the text.  The
filling of the draft keeps both.

A bus hands the text of the message on as it is, as the last one to every reader that is subscribed
(`getLast?_receive_publish`), also to one that is too late for earlier texts.

Main statement: the envelope that a bus hands out for a proper message is read as the message, and a
message that has been read from any text is read again from its own text, if the numbers in the data
are whole (`envelope_roundTrip`).
-/

namespace Courier

namespace Json

/-! ### Values in order -/

/-- Whether the members of every object of a value are in ascending order of their keys. -/
inductive Value.Ordered : Value → Prop
  | null : Ordered .null
  | bool (b : Bool) : Ordered (.bool b)
  | number (n : Number) : Ordered (.number n)
  | string (s : String) : Ordered (.string s)
  | array {items : List Value} (h : ∀ v ∈ items, Ordered v) : Ordered (.array items)
  | object {ms : List (String × Value)} (hkeys : (ms.map Prod.fst).Pairwise (· < ·))
      (h : ∀ m ∈ ms, Ordered m.2) : Ordered (.object ms)

/-- Whether a number is a whole one that fits in 64 bits, with a sign or without. -/
def Number.Integral : Number → Prop
  | .whole n => isExact n = true
  | .real _ => False

theorem Members.pairwise_insert {α : Type} {key : String} {value : α} {ms : List (String × α)}
    (h : (ms.map Prod.fst).Pairwise (· < ·)) :
    ((insert key value ms).map Prod.fst).Pairwise (· < ·) := by
  induction ms with
  | nil => exact List.pairwise_singleton _ _
  | cons m ms ih =>
    obtain ⟨k, v⟩ := m
    obtain ⟨hk, hms⟩ := List.pairwise_cons.mp h
    rw [insert]
    split
    · -- the key comes before all others, after some, or in the place of its own
      rename_i hlt
      refine List.pairwise_cons.mpr ⟨List.forall_mem_cons.mpr ⟨hlt, ?_⟩, h⟩
      intro l hl
      exact String.lt_trans hlt (hk l hl)
    · rename_i hnot
      split
      · rename_i heq
        subst heq
        exact List.pairwise_cons.mpr ⟨hk, hms⟩
      · rename_i hne
        have hlt : k < key := by
          rcases lt_trichotomy k key with hlt | heq | hgt
          · exact hlt
          · exact absurd heq.symm hne
          · exact absurd hgt hnot
        refine List.pairwise_cons.mpr ⟨fun l hl => ?_, ih hms⟩
        obtain ⟨m, hm, rfl⟩ := List.mem_map.mp hl
        rcases mem_of_mem_insert hm with rfl | hm
        · exact hlt
        · exact hk m.1 (List.mem_map_of_mem hm)

/-- The members of a list of pairs are in order, whatever the order of the pairs. -/
theorem Members.pairwise_ofList {α : Type} (pairs : List (String × α)) :
    ((ofList pairs).map Prod.fst).Pairwise (· < ·) := by
  induction pairs using List.reverseRecOn with
  | nil => exact .nil
  | append_singleton pairs p ih =>
    rw [ofList, List.foldl_append]
    exact pairwise_insert ih

/-- What a document says is in order. -/
theorem ordered_of_value {d : Document} {room : ℕ} {v : Value} (h : d.value room = .ok v) :
    v.Ordered := by
  induction d using Document.induction generalizing room v with
  | null =>
    cases h
    exact .null
  | bool b =>
    cases h
    exact .bool b
  | numeral n =>
    unfold Document.value at h
    obtain ⟨number, -, rfl⟩ := map_eq_ok.mp h
    exact .number number
  | text ps =>
    unfold Document.value at h
    obtain ⟨s, -, rfl⟩ := map_eq_ok.mp h
    exact .string s
  | array ds stop ih =>
    unfold Document.value at h
    obtain ⟨_, -, h⟩ := bind_eq_ok.mp h
    obtain ⟨vs, hvs, h⟩ := bind_eq_ok.mp h
    obtain ⟨_, -, h⟩ := bind_eq_ok.mp h
    cases h
    exact .array (forall_of_values hvs fun d hd v hv => ih d hd hv)
  | object ms stop ih =>
    unfold Document.value at h
    obtain ⟨_, -, h⟩ := bind_eq_ok.mp h
    obtain ⟨vs, hvs, h⟩ := bind_eq_ok.mp h
    obtain ⟨_, -, h⟩ := bind_eq_ok.mp h
    cases h
    -- however often a key comes, the values of all of its members are in order
    have hpairs : ∀ m ∈ vs, m.2.Ordered := forall_of_valueMembers hvs fun m hm v hv => ih m hm hv
    exact .object (Members.pairwise_ofList vs) fun m hm => hpairs m (Members.mem_of_mem_ofList hm)
  | broken b => cases h

theorem Value.faithful_array {items : List Value} (h : ∀ v ∈ items, v.Faithful) :
    (Value.array items).Faithful := by
  induction items with
  | nil => trivial
  | cons v vs ih =>
    obtain ⟨hv, hvs⟩ := List.forall_mem_cons.mp h
    exact ⟨hv, ih hvs⟩

/-- A value in order can be written without loss, if its numbers can. -/
theorem Value.Ordered.faithful {v : Value} (h : v.Ordered) (hnumbers : v.Numbers Number.Faithful) :
    v.Faithful := by
  induction h with
  | null => trivial
  | bool b => trivial
  | number n =>
    cases hnumbers with
    | number h => exact h
  | string s => trivial
  | array _ ih =>
    cases hnumbers with
    | array hitems => exact faithful_array fun v hv => ih v hv (hitems v hv)
  | object hkeys _ ih =>
    cases hnumbers with
    | object hms => exact faithful_object hkeys fun m hm => ih m hm (hms m hm)

theorem Number.Integral.faithful {n : Number} (h : n.Integral) : n.Faithful := by
  cases n with
  | whole n => exact h
  | real x => exact h.elim

/-- The parts of a place have one container less that may still be opened. -/
theorem room_of_view {s : Place} {view : View Place} (h : Source.view s = .ok view) :
    view.All fun p => p.room = s.room - 1 := by
  obtain ⟨room, document⟩ := s
  cases document with
  | array items stop =>
    cases h
    rintro p hp
    obtain ⟨d, -, rfl⟩ := List.mem_map.mp hp
    rfl
  | object members stop =>
    cases h
    rintro p hp
    obtain ⟨m, -, rfl⟩ := List.mem_map.mp hp
    rfl
  | numeral n =>
    obtain ⟨_, -, rfl⟩ := map_eq_ok.mp h
    trivial
  | text ps =>
    obtain ⟨_, -, rfl⟩ := map_eq_ok.mp h
    trivial
  | broken b => cases h
  | _ =>
    cases h
    trivial

end Json

namespace Message

open Json

/-! ### Proper messages -/

/-- Whether a message is one that can be held and sent: its chat is a signed number of 64 bits, the
members of the objects in its data are in order, and the data leaves room for the envelope. -/
structure Proper (m : Message) : Prop where
  chatId : ∀ c, m.chatId = some c → -(bound63 : Int) ≤ c ∧ c < bound63
  ordered : m.data.Ordered
  depth : m.data.depth ≤ 126

/-- A proper message can be written and read again, if its numbers can. -/
theorem Proper.portable {m : Message} (h : m.Proper) (hnumbers : m.data.Numbers Number.Integral) :
    m.Portable where
  chatId := h.chatId
  data := h.ordered.faithful (hnumbers.mono fun _ hn => hn.faithful)
  depth := Nat.add_le_add_left h.depth 1

/-- What is read from a text is proper, in whichever form the text has it. -/
theorem proper_of_ofText {t : String} {m : Message} (h : ofText t = .ok m) : m.Proper := by
  rw [ofText, Read.text] at h
  obtain ⟨m', hread, h⟩ := bind_eq_ok.mp h
  have hm : m' = m := by
    split at h
    · cases h
    · exact Except.ok.inj h
  subst hm
  -- the data is in order and leaves room for the message around it
  let P (v : Value) : Prop := v.Ordered ∧ v.depth ≤ 126
  have hstart : ({} : Draft).Holds P := ⟨by simp, by simp⟩
  have hfill : ∀ f ∈ fields, ∀ s : Place, s.room = maxDepth - 1 → ∀ d d' : Draft,
      d.Holds P → f.fill s d = .ok d' → d'.Holds P := by
    rintro f hf ⟨room, document⟩ rfl d d' hd h
    exact hd.fill hf (fun v hv => ⟨ordered_of_value hv, (readable_of_value hv).depth_le⟩) h
  obtain ⟨view, hview, -⟩ := bind_eq_ok.mp hread
  obtain ⟨missing, d, hd, hfinish⟩ :=
    exists_of_record hfill hview (room_of_view hview) hstart hread
  obtain ⟨hchat, hordered, hdepth⟩ := hd.finish ⟨.null, Nat.zero_le _⟩ hfinish
  exact ⟨hchat, hordered, hdepth⟩

/-! ### On the bus -/

theorem capacity_new_pos (capacity : Nat) : 0 < (Bus.new capacity).capacity :=
  Nat.pos_of_isPowerOfTwo (Nat.isPowerOfTwo_nextPowerOfTwo capacity)

/-- What is published is the last that every reader is given. -/
theorem getLast?_receive_publish {b : Bus} (hopen : b.closed = false) (hcapacity : 0 < b.capacity)
    {id : ReaderId} {past : Nat} (hreader : b.readers.lookup id = some past)
    (hpast : past ≤ b.count) (m : Message) :
    ((b.publish m).2.receive id).1.getLast? = some (.envelope m.text) := by
  have hreaders : b.readers.isEmpty = false := by
    cases hempty : b.readers with
    | nil => simp [hempty] at hreader
    | cons r rs => rfl
  -- at least one text is kept, and the last one always is
  obtain ⟨capacity, hcapacity⟩ := Nat.exists_eq_add_one_of_ne_zero hcapacity.ne'
  have hbehind : b.count + 1 - past = b.count - past + 1 := Nat.succ_sub hpast
  simp only [Bus.publish, Bus.publishText, hreaders, Bool.false_eq_true, if_false, Bus.receive,
    hreader, Bus.pending, hopen, hcapacity, hbehind, List.take_succ_cons, List.reverse_cons,
    List.map_append, List.map_cons, List.map_nil, List.append_nil, ← List.append_assoc,
    List.getLast?_concat]

/-- Whatever a proper message with whole numbers holds, the envelope that goes out on a bus for it
is read as the message; and what has been read from an envelope in any form is read again from the
envelope that is written for it, if its numbers are whole. -/
theorem envelope_roundTrip :
    (∀ m : Message, m.Proper → m.data.Numbers Number.Integral →
      ∀ (b : Bus) (id : ReaderId) (past : Nat), b.closed = false → 0 < b.capacity →
        b.readers.lookup id = some past → past ≤ b.count →
        ∃ t, ((b.publish m).2.receive id).1.getLast? = some (.envelope t) ∧ ofText t = .ok m) ∧
      ∀ (t : String) (m : Message), ofText t = .ok m → m.data.Numbers Number.Integral →
        ofText m.text = .ok m := by
  constructor
  · intro m hm hnumbers b id past hopen hcapacity hreader hpast
    have hreceive := getLast?_receive_publish hopen hcapacity hreader hpast m
    exact ⟨m.text, hreceive, ofText_text (hm.portable hnumbers)⟩
  · intro t m h hnumbers
    exact ofText_text ((proper_of_ofText h).portable hnumbers)

theorem envelope_roundTrip_placed :
    let m : Message := ⟨some (-7), none, "\"a\\\x07é\"", .object
      [("k", .array [.number (.whole 18446744073709551615), .null]), ("π", .string "\n")], true⟩
    let t := "[-7, null, \"\\\"a\\\\\\u0007\\u00e9\\\"\", \x7b\"π\": \"\\n\", \"k\": 0," ++
      " \"k\": [18446744073709551615, null]\x7d, true]"
    m.Proper ∧ m.data.Numbers Number.Integral ∧ ofText t = .ok m ∧
      (∃ t', (((Bus.new 3).subscribe.2.publish m).2.receive 0).1.getLast? = some (.envelope t') ∧
        ofText t' = .ok m) ∧
      ofText m.text = .ok m := by
  intro m t
  have hread : ofText t = .ok m := by decide +kernel
  have hproper : m.Proper := proper_of_ofText hread
  have hnumbers : m.data.Numbers Number.Integral := by
    refine .object (List.forall_mem_cons.mpr ⟨.array ?_, List.forall_mem_singleton.mpr (.string _)⟩)
    exact List.forall_mem_cons.mpr ⟨.number rfl, List.forall_mem_singleton.mpr .null⟩
  have hboth := envelope_roundTrip
  exact ⟨hproper, hnumbers, hread,
    hboth.1 m hproper hnumbers (Bus.new 3).subscribe.2 0 0 rfl (capacity_new_pos 3) rfl
      (Nat.le_refl _),
    hboth.2 t m hread hnumbers⟩

end Message

end Courier

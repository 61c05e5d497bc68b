import Courier.Proofs.Json.Spelling
import Mathlib.Data.List.Induction
import Mathlib.Data.String.Basic

/-!
JSON texts of values, read back.

A value is read back through its document (`Value.document`), in two steps: its text spells the
document (`spells_document`), and the document has the value (`value_document`).  A value is
faithful if both are as they should be, that is, if its objects are in order and its numbers can be
read back.  For the first step it is enough that the text of every number says some number
(`spells_of_legible`), and how deep the value is does not matter.  The second one counts containers:
a document is entered only if there is room left, and its parts have one place less.

Objects are read by inserting their members one by one.  If the keys are in order and different,
every member is inserted behind all others (`Members.insert_concat`), so the list comes back as it
was.

Main statement: the text of a faithful value within the nesting limit is read back as the value
(`parse_text`).
-/

namespace Courier.Json

/-! ### Members in order -/

theorem Members.insert_concat {α : Type} {key : String} {value : α} {ms : List (String × α)}
    (h : ∀ m ∈ ms, m.1 < key) : Members.insert key value ms = ms ++ [(key, value)] := by
  induction ms with
  | nil => rfl
  | cons m ms ih =>
    obtain ⟨k, v⟩ := m
    have hk : k < key := h (k, v) List.mem_cons_self
    have hrest := ih fun m hm => h m (List.mem_cons_of_mem _ hm)
    rw [insert, if_neg (String.lt_asymm hk), if_neg hk.ne', hrest, List.cons_append]

/-- Members in ascending order are a list of members. -/
theorem Members.ofList_eq {α : Type} {ms : List (String × α)}
    (h : (ms.map Prod.fst).Pairwise (· < ·)) : Members.ofList ms = ms := by
  induction ms using List.reverseRecOn with
  | nil => rfl
  | append_singleton ms m ih =>
    rw [List.map_append, List.pairwise_append] at h
    obtain ⟨hms, -, hlast⟩ := h
    have hm : ∀ n ∈ ms, n.1 < m.1 := by
      intro n hn
      exact hlast n.1 (List.mem_map_of_mem hn) m.1 (List.mem_singleton_self _)
    have hinit : ms.foldl (fun ms p => insert p.1 p.2 ms) [] = ms := ih hms
    rw [ofList, List.foldl_append, hinit]
    exact insert_concat hm

/-! ### Values -/

/-- What holds of a container if it holds of all values in it holds of all values. -/
@[elab_as_elim]
theorem Value.induction {P : Value → Prop} (null : P .null) (bool : ∀ b, P (.bool b))
    (number : ∀ n, P (.number n)) (string : ∀ s, P (.string s))
    (array : ∀ items, (∀ v ∈ items, P v) → P (.array items))
    (object : ∀ ms, (∀ m ∈ ms, P m.2) → P (.object ms)) : (v : Value) → P v
  | .null => null
  | .bool b => bool b
  | .number n => number n
  | .string s => string s
  | .array items => array items fun v _ => induction null bool number string array object v
  | .object ms => object ms fun m _ => induction null bool number string array object m.2
termination_by v => sizeOf v
decreasing_by
  · have hlt := List.sizeOf_lt_of_mem ‹_›
    simp only [Value.array.sizeOf_spec]
    omega
  · have hlt := List.sizeOf_lt_of_mem ‹_›
    have hm : sizeOf m = 1 + sizeOf m.1 + sizeOf m.2 := rfl
    simp only [Value.object.sizeOf_spec]
    omega

/-- How many containers are open at once where a value is nested most deeply. -/
def Value.depth : Value → Nat
  | .array items => 1 + depthItems items
  | .object ms => 1 + depthMembers ms
  | _ => 0
where
  depthItems : List Value → Nat
    | [] => 0
    | v :: vs => max (depth v) (depthItems vs)
  depthMembers : List (String × Value) → Nat
    | [] => 0
    | (_, v) :: ms => max (depth v) (depthMembers ms)

/-- Whether the text of a number says some number. -/
def Number.Legible (n : Number) : Prop := ∃ m v, tokens n.print = [.numeral m] ∧ m.value? = some v

/-- Whether a number can be read back: whole ones if they fit in 64 bits, doubles if their text says
all about them. -/
def Number.Faithful : Number → Prop
  | .whole n => isExact n = true
  | .real x => parse (String.ofList (Number.real x).print) = .ok (.number (.real x))

/-- Whether all numbers of a value can be read back, and its objects are in order. -/
def Value.Faithful : Value → Prop
  | .number n => n.Faithful
  | .array items => faithfulItems items
  | .object ms => (ms.map Prod.fst).Pairwise (· < ·) ∧ faithfulMembers ms
  | _ => True
where
  faithfulItems : List Value → Prop
    | [] => True
    | v :: vs => Faithful v ∧ faithfulItems vs
  faithfulMembers : List (String × Value) → Prop
    | [] => True
    | (_, v) :: ms => Faithful v ∧ faithfulMembers ms

/-- Whether all numbers of a value have a property. -/
inductive Value.Numbers (P : Number → Prop) : Value → Prop
  | null : Numbers P .null
  | bool (b : Bool) : Numbers P (.bool b)
  | number {n : Number} (h : P n) : Numbers P (.number n)
  | string (s : String) : Numbers P (.string s)
  | array {items : List Value} (h : ∀ v ∈ items, Numbers P v) : Numbers P (.array items)
  | object {ms : List (String × Value)} (h : ∀ m ∈ ms, Numbers P m.2) : Numbers P (.object ms)

/-- The numeral of a number. -/
def Number.numeral (n : Number) : Numeral :=
  match tokens n.print with
  | [.numeral m] => m
  | _ => .ofInt 0

/-- The document that the text of a value spells. -/
def Value.document : Value → Document
  | .null => .null
  | .bool b => .bool b
  | .number n => .numeral n.numeral
  | .string s => .text (s.toList.map .char)
  | .array items => .array (documentItems items) none
  | .object ms => .object (documentMembers ms) none
where
  documentItems : List Value → List Document
    | [] => []
    | v :: vs => document v :: documentItems vs
  documentMembers : List (String × Value) → List (List Piece × Document)
    | [] => []
    | (k, v) :: ms => (k.toList.map .char, document v) :: documentMembers ms

/-! #### Items and members -/

namespace Value

theorem depth_le_of_mem {items : List Value} {room : Nat} (h : depth.depthItems items ≤ room) :
    ∀ v ∈ items, v.depth ≤ room := by
  induction items with
  | nil => simp
  | cons v vs ih =>
    obtain ⟨hv, hvs⟩ := Nat.max_le.mp h
    exact List.forall_mem_cons.mpr ⟨hv, ih hvs⟩

theorem depth_le_of_mem_members {ms : List (String × Value)} {room : Nat}
    (h : depth.depthMembers ms ≤ room) : ∀ m ∈ ms, m.2.depth ≤ room := by
  induction ms with
  | nil => simp
  | cons m ms ih =>
    obtain ⟨hm, hms⟩ := Nat.max_le.mp h
    exact List.forall_mem_cons.mpr ⟨hm, ih hms⟩

theorem faithful_of_mem {items : List Value} (h : Faithful.faithfulItems items) :
    ∀ v ∈ items, v.Faithful := by
  induction items with
  | nil => simp
  | cons v vs ih => exact List.forall_mem_cons.mpr ⟨h.1, ih h.2⟩

theorem faithful_of_mem_members {ms : List (String × Value)} (h : Faithful.faithfulMembers ms) :
    ∀ m ∈ ms, m.2.Faithful := by
  induction ms with
  | nil => simp
  | cons m ms ih => exact List.forall_mem_cons.mpr ⟨h.1, ih h.2⟩

theorem printItems_eq_map (items : List Value) : print.printItems items = items.map print := by
  induction items with
  | nil => rfl
  | cons v vs ih => exact congrArg _ ih

theorem printMembers_eq_map (ms : List (String × Value)) :
    print.printMembers ms = ms.map fun m => (m.1, m.2.print) := by
  induction ms with
  | nil => rfl
  | cons m ms ih => exact congrArg _ ih

theorem documentItems_eq_map (items : List Value) :
    document.documentItems items = items.map document := by
  induction items with
  | nil => rfl
  | cons v vs ih => exact congrArg _ ih

theorem documentMembers_eq_map (ms : List (String × Value)) :
    document.documentMembers ms = ms.map fun m => (m.1.toList.map .char, m.2.document) := by
  induction ms with
  | nil => rfl
  | cons m ms ih => exact congrArg _ ih

end Value

/-! #### Reading back -/

theorem Number.Legible.tokens_print {n : Number} (h : n.Legible) :
    tokens n.print = [.numeral n.numeral] := by
  obtain ⟨m, v, hm, -⟩ := h
  rw [Number.numeral, hm]

theorem Number.Legible.value?_numeral {n : Number} (h : n.Legible) :
    ∃ v, n.numeral.value? = some v := by
  obtain ⟨m, v, hm, hv⟩ := h
  exact ⟨v, by rw [Number.numeral, hm, hv]⟩

/-- The text of a number is one token, a numeral with its value. -/
theorem Number.Faithful.numeral {n : Number} (h : n.Faithful) :
    tokens n.print = [.numeral n.numeral] ∧ n.numeral.value? = some n := by
  have htokens : ∃ m, tokens n.print = [.numeral m] ∧ m.value? = some n := by
    cases n with
    | whole n => exact ⟨.ofInt n, tokens_whole n, Numeral.value?_ofInt h⟩
    | real x => exact tokens_of_parse h
  obtain ⟨m, hm, hvalue⟩ := htokens
  have hnumeral : n.numeral = m := by simp only [Number.numeral, hm]
  rw [hnumeral]
  exact ⟨hm, hvalue⟩

theorem Value.Faithful.legible {v : Value} (h : v.Faithful) : v.Numbers Number.Legible := by
  induction v using Value.induction with
  | null => exact .null
  | bool b => exact .bool b
  | number n => exact .number ⟨_, _, Number.Faithful.numeral h⟩
  | string s => exact .string s
  | array items ih => exact .array fun v hv => ih v hv (faithful_of_mem h v hv)
  | object ms ih => exact .object fun m hm => ih m hm (faithful_of_mem_members h.2 m hm)

theorem spells_members {ms : List (String × Value)}
    (h : ∀ m ∈ ms, Spells m.2.print m.2.document) :
    Spells (Value.object ms).print (Value.object ms).document := by
  have hparts : ∀ n ∈ ms.map fun m => (⟨m.1, m.2.print, m.2.document⟩ : Member),
      Spells n.text n.document := by
    intro n hn
    obtain ⟨m, hm, rfl⟩ := List.mem_map.mp hn
    exact h m hm
  have hobject := spells_object hparts
  simpa [Value.print, Value.document, Value.printMembers_eq_map, Value.documentMembers_eq_map,
    Function.comp_def] using hobject

/-- The text of a value spells its document if the texts of its numbers are numerals. -/
theorem spells_of_legible {v : Value} (h : v.Numbers Number.Legible) :
    Spells v.print v.document := by
  induction h with
  | null => exact spells_of_tokens rfl rfl
  | bool b =>
    cases b with
    | true => exact spells_of_tokens rfl rfl
    | false => exact spells_of_tokens rfl rfl
  | number h => exact spells_of_tokens h.tokens_print rfl
  | string s => exact spells_string s
  | @array items _ ih =>
    -- each item spells its document, and so they do with commas between them
    have hparts : ∀ p ∈ items.map fun v => (v.print, v.document), Spells p.1 p.2 := by
      intro p hp
      obtain ⟨v, hv, rfl⟩ := List.mem_map.mp hp
      exact ih v hv
    have harray := spells_array hparts
    simpa [Value.print, Value.document, Value.printItems_eq_map, Value.documentItems_eq_map,
      Function.comp_def] using harray
  | object _ ih => exact spells_members ih

/-- The text of a value spells its document. -/
theorem spells_document {v : Value} (h : v.Faithful) : Spells v.print v.document :=
  spells_of_legible h.legible

theorem spell_map_char (s : String) : spell (s.toList.map .char) = .ok s := by
  simp only [spell, spell?_map_char, String.ofList_toList]

/-- A container that there is room for is entered. -/
theorem enter_eq_ok {inside room : Nat} (h : 1 + inside ≤ room) : enter room = .ok () :=
  if_neg (Nat.ne_of_gt (Nat.lt_of_lt_of_le (Nat.lt_add_right inside Nat.zero_lt_one) h))

theorem values_document {items : List Value} {room : Nat}
    (h : ∀ v ∈ items, v.document.value room = .ok v) :
    Document.value.values room (items.map Value.document) = .ok items := by
  induction items with
  | nil => rfl
  | cons v vs ih =>
    have hv := h v List.mem_cons_self
    have hvs := ih fun w hw => h w (List.mem_cons_of_mem v hw)
    simp only [List.map_cons, Document.value.values, hv, hvs, bind, Except.bind, pure, Except.pure]

theorem valueMembers_document {ms : List (String × Value)} {room : Nat}
    (h : ∀ m ∈ ms, m.2.document.value room = .ok m.2) :
    Document.value.valueMembers room (ms.map fun m => (m.1.toList.map .char, m.2.document)) =
      .ok ms := by
  induction ms with
  | nil => rfl
  | cons m ms ih =>
    have hkey := spell_map_char m.1
    have hm := h m List.mem_cons_self
    have hms := ih fun n hn => h n (List.mem_cons_of_mem m hn)
    simp only [List.map_cons, Document.value.valueMembers, hkey, hm, hms, bind, Except.bind, pure,
      Except.pure]

/-- The document of a value has its value, if there is room for the containers. -/
theorem value_document {v : Value} (h : v.Faithful) {room : Nat} (hroom : v.depth ≤ room) :
    v.document.value room = .ok v := by
  induction v using Value.induction generalizing room with
  | null => rfl
  | bool b => rfl
  | number n =>
    have hvalue := (Number.Faithful.numeral h).2
    simp only [Value.document, Document.value, Numeral.read, hvalue, Except.map]
  | string s =>
    simp only [Value.document, Document.value, spell_map_char, Except.map]
  | array items ih =>
    -- the items have one place less than the array
    have hinside : Value.depth.depthItems items ≤ room - 1 := by
      simp only [Value.depth] at hroom
      omega
    have hitems : ∀ v ∈ items, v.document.value (room - 1) = .ok v := by
      intro v hv
      exact ih v hv (Value.faithful_of_mem h v hv) (Value.depth_le_of_mem hinside v hv)
    simp only [Value.document, Document.value, Value.documentItems_eq_map, enter_eq_ok hroom,
      values_document hitems, Option.map_none, orFail, bind, Except.bind, pure, Except.pure]
  | object ms ih =>
    have hinside : Value.depth.depthMembers ms ≤ room - 1 := by
      simp only [Value.depth] at hroom
      omega
    have hms : ∀ m ∈ ms, m.2.document.value (room - 1) = .ok m.2 := by
      intro m hm
      exact ih m hm (Value.faithful_of_mem_members h.2 m hm)
        (Value.depth_le_of_mem_members hinside m hm)
    simp only [Value.document, Document.value, Value.documentMembers_eq_map, enter_eq_ok hroom,
      valueMembers_document hms, Members.ofList_eq h.1, Option.map_none, orFail, bind, Except.bind,
      pure, Except.pure]

/-- The text of a value within the nesting limit is read back as the value. -/
theorem parse_text {v : Value} (h : v.Faithful) (hdepth : v.depth ≤ maxDepth) :
    parse v.text = .ok v := by
  have hdocument := (spells_document h).ofText
  have hvalue : Source.value (⟨maxDepth, v.document⟩ : Place) = .ok v := value_document h hdepth
  rw [parse, Read.text, Value.text, hdocument]
  simp [hvalue, bind, Except.bind, pure, Except.pure]

end Courier.Json

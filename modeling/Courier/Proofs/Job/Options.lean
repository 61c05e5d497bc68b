import Courier.Job.Option
import Courier.Proofs.Json.RoundTrip

/-!
JSON texts of options, read back.

The text of an option is that of an object with two members, its kind and its value.  What its
document is (`document`), that the text spells it (`spells_document`) and what it is read as
(`read_document`) are three facts, one for each stage of reading; the list of options is an array of
such documents.

A value is read back if it is faithful, that is, if its text says which value it was.  The room is
counted from the outside: the array takes one container and the object another one.

Main statement: the text of a list of options is read back as the list, if their values are faithful
and there is room for them in the two containers around each (`JobOption.listOfText_printList`).
-/

namespace Courier

/-- What is read back one by one is read back as a list. -/
theorem mapM_map_eq_ok {α β ε : Type} {f : α → β} {g : β → Except ε α} {xs : List α}
    (h : ∀ x ∈ xs, g (f x) = .ok x) : (xs.map f).mapM g = .ok xs := by
  induction xs with
  | nil => rfl
  | cons x xs ih =>
    have hx := h x List.mem_cons_self
    have hxs := ih fun y hy => h y (List.mem_cons_of_mem x hy)
    simp [hx, hxs, bind, Except.bind, pure, Except.pure]

namespace JobOption

open Json

/-- The document that the text of an option spells. -/
def document (o : JobOption) : Document :=
  .object [("type".toList.map .char, .text (o.kind.toList.map .char)),
    ("value".toList.map .char, o.value.document)] none

theorem spells_document {o : JobOption} (h : o.value.Faithful) : Spells o.print o.document := by
  have hmembers : ∀ m ∈ [(⟨"type", printString o.kind, .text (o.kind.toList.map .char)⟩ : Member),
      ⟨"value", o.value.print, o.value.document⟩], Spells m.text m.document := by
    intro m hm
    rcases List.mem_pair.mp hm with rfl | rfl
    · exact spells_string o.kind
    · exact Json.spells_document h
  exact spells_object hmembers

/-- The document of an option is read as the option. -/
theorem read_document {o : JobOption} (h : o.value.Faithful) {room : Nat}
    (hroom : 1 + o.value.depth ≤ room) : read (⟨room, o.document⟩ : Place) = .ok o := by
  have hvalue : o.value.document.value (room - 1) = .ok o.value := value_document h (by omega)
  have henter := enter_eq_ok hroom
  -- the object is opened, with the two members under their names
  have hview : Source.view (⟨room, o.document⟩ : Place) = .ok (.object (.ok ())
      [(.ok "type", ⟨room - 1, .text (o.kind.toList.map .char)⟩),
        (.ok "value", ⟨room - 1, o.value.document⟩)] none) := by
    simp only [Source.view, document, List.map_cons, List.map_nil, spell_map_char, henter,
      Option.map_none]
  have hkind : Read.string (⟨room - 1, .text (o.kind.toList.map .char)⟩ : Place) = .ok o.kind := by
    simp only [Read.string, Source.view, spell_map_char, Except.map, bind, Except.bind, pure,
      Except.pure]
  have hplace : Source.value (⟨room - 1, o.value.document⟩ : Place) = .ok o.value := hvalue
  simp [read, Read.record, hview, Read.fillNamed, fields, hkind, hplace, Draft.finish, orFail, bind,
    Except.bind, Except.map]

/-- The text of a list of options is read back as the list. -/
theorem listOfText_printList {os : List JobOption} (hfaithful : ∀ o ∈ os, o.value.Faithful)
    (hdepth : ∀ o ∈ os, 2 + o.value.depth ≤ maxDepth) :
    listOfText (String.ofList (printList os)) = .ok os := by
  have hparts : ∀ p ∈ os.map fun o => (o.print, o.document), Spells p.1 p.2 := by
    intro p hp
    obtain ⟨o, ho, rfl⟩ := List.mem_map.mp hp
    exact spells_document (hfaithful o ho)
  have hspells : Spells (printList os) (.array (os.map document) none) := by
    simpa [printList, Function.comp_def] using spells_array hparts
  have hitems : (os.map fun o => (⟨maxDepth - 1, o.document⟩ : Place)).mapM read = .ok os := by
    refine mapM_map_eq_ok ?_
    intro o ho
    -- one container is taken by the array
    have hroom : 1 + o.value.depth ≤ maxDepth - 1 := by
      have := hdepth o ho
      omega
    exact read_document (hfaithful o ho) hroom
  have hview : Source.view (⟨maxDepth, .array (os.map document) none⟩ : Place) =
      .ok (.array (.ok ()) (os.map fun o => ⟨maxDepth - 1, o.document⟩) none) := by
    simp [Source.view, enter, maxDepth]
  rw [listOfText, Read.text, hspells.ofText]
  simp [readList, Read.list, hview, hitems, orFail, bind, Except.bind, pure, Except.pure]

end JobOption
end Courier

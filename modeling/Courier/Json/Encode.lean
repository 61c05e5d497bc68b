import Courier.Json.Value

/-!
JSON images of values.

`ToValue` gives a value its image: numbers, truth values and texts are shown as they are, lists as
arrays, and what is missing as null.  The image of a record is an object with a member for every
field.
-/

namespace Courier.Json

/-- The object of some members; of two members under one key the later one counts. -/
def Value.ofMembers (ms : List (String × Value)) : Value := .object (Members.ofList ms)

/-- Types whose values have an image. -/
class ToValue (α : Type) where
  /-- The image of a value. -/
  toValue : α → Value

open ToValue

instance : ToValue Value := ⟨id⟩

instance : ToValue Bool := ⟨.bool⟩

instance : ToValue Int := ⟨fun n => .number (.whole n)⟩

instance : ToValue Nat := ⟨fun n => .number (.whole n)⟩

instance : ToValue String := ⟨.string⟩

instance {α : Type} [ToValue α] : ToValue (List α) := ⟨fun as => .array (as.map toValue)⟩

instance {α : Type} [ToValue α] : ToValue (Option α) where
  toValue
    | some a => toValue a
    | none => .null

end Courier.Json

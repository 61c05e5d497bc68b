import Courier.Catalog.Store
import Courier.Json.Encode
import Courier.Json.Decode

/-!
The catalog as text, for a file.

A catalog is an array of rows, each an array of its columns; a catalog without its table is null.
-/

namespace Courier.Catalog

open Json ToValue

/-- The columns of a row, in order. -/
def Row.toValue (r : Row) : Value :=
  .array [ToValue.toValue r.id, ToValue.toValue r.name, ToValue.toValue r.cron,
    ToValue.toValue r.payload, ToValue.toValue r.options, ToValue.toValue r.enabled,
    ToValue.toValue r.updatedAt]

/-- A text, if a value is one. -/
def textOf? : Value → Option String
  | .string s => some s
  | _ => none

/-- The row that a value spells. -/
def Row.ofValue? : Value → Option Row
  | .array [.string id, .string name, .string cron, payload, .string options,
      .number (.whole enabled), .string updatedAt] =>
    some ⟨id, name, cron, textOf? payload, options, enabled, updatedAt⟩
  | _ => none

theorem Row.ofValue?_toValue (r : Row) : Row.ofValue? r.toValue = some r := by
  obtain ⟨id, name, cron, payload, options, enabled, updatedAt⟩ := r
  cases payload <;> rfl

/-- The image of a catalog. -/
def toValue (c : Catalog) : Value :=
  match c.table with
  | none => .null
  | some rows => .array (rows.map Row.toValue)

/-- The catalog that a value spells. -/
def ofValue? : Value → Option Catalog
  | .null => some ⟨none⟩
  | .array rows => (rows.mapM Row.ofValue?).map fun rows => ⟨some rows⟩
  | _ => none

/-- The text of a catalog. -/
def text (c : Catalog) : String := c.toValue.text

/-- The catalog that a text spells. -/
def ofText? (t : String) : Option Catalog :=
  match Json.parse t with
  | .ok v => ofValue? v
  | .error _ => none

end Courier.Catalog

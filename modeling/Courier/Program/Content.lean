import Courier.Catalog.Text
import Courier.Program.Disk

/-!
The contents of files as texts.

A file whose text spells a catalog holds that catalog; every other file holds its text.
-/

namespace Courier.Program.Content

/-- What a file with a text holds. -/
def ofText (t : String) : Content :=
  match Catalog.ofText? t with
  | some c => .catalog c
  | none => .text t

/-- The text of a file. -/
def toText : Content → String
  | .text s => s
  | .catalog c => c.text

/-- The catalog that a file holds, without jobs if it holds none. -/
def toCatalog : Content → Catalog
  | .text _ => .empty
  | .catalog c => c

end Courier.Program.Content

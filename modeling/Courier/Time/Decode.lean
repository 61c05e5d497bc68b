import Courier.Json.Decode
import Courier.Time.Timestamp

/-!
Timestamps inside JSON: strings in the loose written form.
-/

namespace Courier.Json.Read

variable {S : Type} [Source S]

/-- A timestamp. -/
def instant (s : S) : Except DecodeError Time.Instant := do
  match ← Source.view s with
  | .string t =>
    match Time.Timestamp.lenient? t with
    | some a => return a
    | none => throw .badTime
  | v => throw (.wrongType v.found "an RFC 3339 formatted date and time string")

end Courier.Json.Read

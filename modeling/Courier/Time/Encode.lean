import Courier.Json.Encode
import Courier.Time.Timestamp

/-!
The JSON image of an instant: its timestamp.
-/

namespace Courier.Time

instance : Json.ToValue Instant := ⟨fun a => .string a.text⟩

end Courier.Time

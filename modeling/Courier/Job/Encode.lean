import Courier.Job.Basic
import Courier.Time.Encode

/-!
The JSON image of a job, with its payload and its options as texts.
-/

namespace Courier

open Json ToValue

instance : ToValue Job where
  toValue j := .ofMembers
    [("id", toValue j.id), ("name", toValue j.name), ("cron_expr", toValue j.cron),
     ("payload", toValue (j.payload.map Value.text)),
     ("options", toValue (String.ofList (JobOption.printList j.options))),
     ("enabled", toValue j.enabled), ("updated_at", toValue j.updatedAt)]

end Courier

import Courier.Json.Encode
import Courier.Scheduler.Basic
import Courier.Scheduler.Recorder
import Courier.Task.Encode

/-!
JSON images of what the scheduler does.
-/

namespace Courier

open Json ToValue

instance : ToValue SyncReport where
  toValue r := .ofMembers
    [("added", toValue r.added), ("removed", toValue r.removed),
     ("failed_removals", toValue r.failedRemovals), ("failed_adds", toValue r.failedAdds),
     ("skipped", toValue r.skipped)]

instance : ToValue Scheduler.Recorder.Call where
  toValue c := .ofMembers
    [("register", toValue c.task.name), ("cron", toValue c.expr),
     ("payload", toValue c.task.payload),
     ("options", toValue c.options)]

end Courier

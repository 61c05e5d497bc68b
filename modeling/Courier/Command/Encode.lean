import Courier.Command.Line
import Courier.Json.Encode

/-!
The JSON image of a command line: what it asks for, with its arguments.
-/

namespace Courier.Command

open Json ToValue

instance : ToValue JobsCommand where
  toValue
    | .list => .string "list"
    | .add name cron payload options disabled =>
      .ofMembers [("add", .ofMembers
        [("name", toValue name), ("cron", toValue cron), ("payload", toValue payload),
         ("options", toValue options), ("disabled", toValue disabled)])]
    | .enable id => .ofMembers [("enable", toValue id)]
    | .disable id => .ofMembers [("disable", toValue id)]
    | .remove id => .ofMembers [("remove", toValue id)]

instance : ToValue Action where
  toValue
    | .none => .string "none"
    | .serve => .string "serve"
    | .jobs c => toValue c

instance : ToValue Line where
  toValue l := .ofMembers [("config", toValue l.config), ("command", toValue l.action)]

end Courier.Command

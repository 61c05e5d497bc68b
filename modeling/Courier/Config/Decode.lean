import Courier.Config.Basic

/-!
Configurations in JSON.
-/

namespace Courier.Config

open Json

/-- The setting that a value spells, if there is nothing without a meaning in it. -/
def Setting.ofValue? : Value → Option Setting
  | .null => none
  | .bool b => some (.atom .file (.flag b))
  | .number (.whole n) => some (.atom .file (.signed n))
  | .number (.real _) => none
  | .string s => some (.atom .file (.text s))
  | .array items => (ofItems? items).map (.list .file)
  | .object members => (ofMembers? members).map (.table .file)
where
  ofItems? : List Value → Option (List Setting)
    | [] => some []
    | v :: vs => do return (← ofValue? v) :: (← ofItems? vs)
  ofMembers? : List (String × Value) → Option (List (String × Setting))
    | [] => some []
    | (k, v) :: ms => do return (k, ← ofValue? v) :: (← ofMembers? ms)

/-- The configuration that a value spells over defaults. -/
def ofValue? (defaults : Config) (v : Value) : Option Config := do
  let s ← Setting.ofValue? v
  (decode defaults s).toOption

end Courier.Config

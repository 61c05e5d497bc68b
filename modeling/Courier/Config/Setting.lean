import Courier.Json.Value
import Courier.Number.Real

/-!
Settings: the values that a configuration is made of, and where each comes from.

Settings come from a file and from the environment.  `Setting.merge` lays one over the other: tables
are merged entry by entry, anything else is replaced, and what is merged counts as coming from the
upper one.
-/

namespace Courier.Config

/-- Where a setting comes from. -/
inductive Origin
  | file
  | environment
deriving DecidableEq

/-- A setting without parts. -/
inductive Atom
  | text (s : String)
  | letter (c : Char)
  | flag (b : Bool)
  | signed (n : Int)
  | unsigned (n : Nat)
  | real (x : Real)
deriving DecidableEq

/-- A setting.  The entries of a table are in ascending order of their keys. -/
inductive Setting
  | atom (origin : Origin) (a : Atom)
  | list (origin : Origin) (items : List Setting)
  | table (origin : Origin) (entries : List (String × Setting))

namespace Setting

instance : Inhabited Setting := ⟨.table .file []⟩

/-- Where a setting comes from. -/
def origin : Setting → Origin
  | atom o _ | list o _ | table o _ => o

/-- Lays a setting over another. -/
def merge (lower : Setting) : Setting → Setting
  | table o upper =>
    match lower with
    | table _ below => table o (mergeEntries below upper)
    | _ => table o upper
  | atom o a => atom o a
  | list o items => list o items
where
  mergeEntries (below : List (String × Setting)) :
      List (String × Setting) → List (String × Setting)
    | [] => below
    | (k, v) :: rest =>
      let merged := match Json.Members.get? k below with
        | some u => merge u v
        | none => v
      Json.Members.insert k merged (mergeEntries below rest)

/-- A setting under a path of keys. -/
def nest (o : Origin) : List String → Setting → Setting
  | [], s => s
  | k :: ks, s => table o [(k, nest o ks s)]

end Setting

end Courier.Config

import Courier.Config.Environment
import Courier.Config.Toml
import Courier.Text.Quoted

/-!
The configuration of the program.

`Config.load` reads a file and the environment, lays the environment over the file, decodes the
sections and refuses periods of zero.  Every field has a default but the bot token.  An error names
the key at fault in the style of the place that it comes from.
-/

namespace Courier

open Config

/-- Where the job catalog is kept. -/
structure DatabaseConfig where
  path : String
deriving DecidableEq

/-- The bot that delivers notifications. -/
structure TelegramConfig where
  botToken : String
deriving DecidableEq

/-- How jobs are synchronised and fired. -/
structure SchedulerConfig where
  /-- Seconds between two synchronisations. -/
  syncIntervalSecs : Nat := 300
  /-- Seconds that reading the catalog may take. -/
  syncTimeoutSecs : Nat := 60
  /-- How many fired tasks may wait to be routed. -/
  queueCapacity : Nat := 256
deriving DecidableEq

/-- How notifications are delivered. -/
structure DispatchConfig where
  /-- How many recipients may be served at once. -/
  maxWorkers : Nat := 25
  /-- Milliseconds between two hand-overs to workers. -/
  tickMillis : Nat := 1000
  /-- Seconds between two delayed messages to one recipient. -/
  workerPeriodSecs : Nat := 3
  /-- How often a unit may be tried. -/
  maxRetry : Nat := 3
  /-- How many messages the bus keeps for a slow subscriber. -/
  busCapacity : Nat := 256
deriving DecidableEq

/-- The configuration. -/
structure Config where
  database : DatabaseConfig
  telegram : Option TelegramConfig
  scheduler : SchedulerConfig
  dispatch : DispatchConfig
deriving DecidableEq

namespace Config

/-! ### Errors -/

/-- Why a setting does not fit. -/
inductive SettingFault
  | wrongType (found expected : String)
  | outOfRange (found expected : String)
  | missing (field : String)
  | tooShort (length : Nat) (expected : String)
deriving DecidableEq

/-- Why there is no configuration. -/
inductive ConfigError
  /-- The file is not TOML. -/
  | malformed
  | setting (fault : SettingFault) (origin : Origin) (path : List String)
  /-- A period is zero. -/
  | zero (key : String)
deriving DecidableEq

/-- The wording of a fault. -/
def SettingFault.message : SettingFault → String
  | wrongType found expected => "invalid type: found " ++ found ++ ", expected " ++ expected
  | outOfRange found expected => "invalid value " ++ found ++ ", expected " ++ expected
  | missing field => "missing field `" ++ field ++ "`"
  | tooShort n expected => "invalid length " ++ toString n ++ ", expected " ++ expected

/-- The name of a key as the place of its setting spells it. -/
def keyText (origin : Origin) (path : List String) : String :=
  match origin with
  | .file => String.intercalate "." ("default" :: path)
  | .environment =>
    String.intercalate "." (path.map fun k => String.ofList (k.toList.map Char.toUpper))

/-- The wording of an error. -/
def ConfigError.message : ConfigError → String
  | malformed => "Configuration error: <toml>"
  | setting fault origin path =>
    "Configuration error: " ++ fault.message ++
      (if path.isEmpty then "" else " for key " ++ Text.quote (keyText origin path))
  | zero key => "Configuration error: " ++ key ++ " must be greater than zero"

/-! ### Decoding -/

/-- The words for a setting. -/
def found : Setting → String
  | .atom _ (.text s) => "string " ++ Text.quote s
  | .atom _ (.letter c) => "char '" ++ String.singleton c ++ "'"
  | .atom _ (.flag b) => "bool " ++ (if b then "true" else "false")
  | .atom _ (.signed n) => "signed int `" ++ toString n ++ "`"
  | .atom _ (.unsigned n) => "unsigned int `" ++ toString n ++ "`"
  | .atom _ (.real x) => "float `" ++ x.text ++ "`"
  | .list .. => "sequence"
  | .table .. => "map"

/-- What a decoder gives: a value, or a fault with its origin and its path from here. -/
abbrev Decoder (α : Type) := Setting → Except (SettingFault × Origin × List String) α

/-- A fault at this setting. -/
def faultAt {α : Type} (s : Setting) (f : SettingFault) :
    Except (SettingFault × Origin × List String) α := .error (f, s.origin, [])

/-- A text. -/
def text : Decoder String
  | .atom _ (.text t) => .ok t
  | .atom _ (.letter c) => .ok (String.singleton c)
  | s => faultAt s (.wrongType (found s) "a string")

/-- A number below a bound, of a type with this name. -/
def count (bound : Nat) (name : String) : Decoder Nat
  | .atom o (.signed n) =>
    if 0 ≤ n ∧ n < bound then .ok n.toNat
    else .error (.outOfRange (found (.atom o (.signed n))) name, o, [])
  | .atom o (.unsigned n) =>
    if n < bound then .ok n else .error (.outOfRange (found (.atom o (.unsigned n))) name, o, [])
  | s => faultAt s (.wrongType (found s) name)

/-- A number of 64 bits. -/
def count64 : Decoder Nat := count (bound64) "u64"

/-- A number of 32 bits. -/
def count32 : Decoder Nat := count (bound32) "u32"

/-- A size. -/
def size : Decoder Nat := count (bound64) "usize"

/-- A field of a section: its name and how it is set. -/
structure Field (σ : Type) where
  name : String
  set : Setting → σ → Except (SettingFault × Origin × List String) σ

/-- A field that is set to what a decoder gives. -/
def Field.of {σ α : Type} (name : String) (decode : Decoder α) (set : α → σ → σ) :
    Field σ :=
  ⟨name, fun s draft => (decode s).map fun a => set a draft⟩

/-- A fault one key further down. -/
def under {α : Type} (k : String) (r : Except (SettingFault × Origin × List String) α) :
    Except (SettingFault × Origin × List String) α :=
  r.mapError fun (f, o, path) => (f, o, k :: path)

/-- Sets the fields that a table has entries for, in the order of the entries. -/
def setNamed {σ : Type} (fields : List (Field σ)) :
    List (String × Setting) → σ → Except (SettingFault × Origin × List String) σ
  | [], draft => .ok draft
  | (k, v) :: es, draft =>
    match fields.find? fun f => f.name == k with
    | none => setNamed fields es draft
    | some f => do setNamed fields es (← under k (f.set v draft))

/-- Sets fields by their places in a list. -/
def setPlaced {σ : Type} : Nat → List (Field σ) → List Setting → σ →
    Except (SettingFault × Origin × List String) σ
  | i, f :: fs, v :: vs, draft => do
    setPlaced (i + 1) fs vs (← under (toString i) (f.set v draft))
  | _, _, _, draft => .ok draft

/-- A section, from a table or a list. -/
def sectionOf {σ : Type} (name : String) (fields : List (Field σ)) (draft : σ) : Decoder σ
  | .table _ es => setNamed fields es draft
  | .list _ vs => setPlaced 0 fields vs draft
  | s => faultAt s (.wrongType (found s) name)

/-- The database section. -/
def readDatabase (defaults : DatabaseConfig) : Decoder DatabaseConfig :=
  sectionOf "struct DatabaseConfig" [.of "path" text fun v d => { d with path := v }] defaults

/-- The telegram section; the token has no default. -/
def readTelegram : Decoder TelegramConfig := fun s => do
  let token ← sectionOf "struct TelegramConfig"
    [.of "bot_token" text fun v (_ : Option String) => some v] none s
  match token, s with
  | some t, _ => return ⟨t⟩
  | none, .list .. => faultAt s (.tooShort 0 "struct TelegramConfig with 1 element")
  | none, _ => faultAt s (.missing "bot_token")

/-- The scheduler section. -/
def readScheduler : Decoder SchedulerConfig :=
  sectionOf "struct SchedulerConfig"
    [.of "sync_interval_secs" count64 fun v d => { d with syncIntervalSecs := v },
     .of "sync_timeout_secs" count64 fun v d => { d with syncTimeoutSecs := v },
     .of "queue_capacity" size fun v d => { d with queueCapacity := v }] {}

/-- The dispatch section. -/
def readDispatch : Decoder DispatchConfig :=
  sectionOf "struct DispatchConfig"
    [.of "max_workers" size fun v d => { d with maxWorkers := v },
     .of "tick_millis" count64 fun v d => { d with tickMillis := v },
     .of "worker_period_secs" count64 fun v d => { d with workerPeriodSecs := v },
     .of "max_retry" count32 fun v d => { d with maxRetry := v },
     .of "bus_capacity" size fun v d => { d with busCapacity := v }] {}

/-- The whole configuration, over the defaults. -/
def decode (defaults : Config) : Decoder Config :=
  sectionOf "struct Config"
    [⟨"database", fun s c =>
        (readDatabase defaults.database s).map fun v => { c with database := v }⟩,
     .of "telegram" readTelegram fun v c => { c with telegram := some v },
     .of "scheduler" readScheduler fun v c => { c with scheduler := v },
     .of "dispatch" readDispatch fun v c => { c with dispatch := v }] defaults

/-! ### Loading -/

/-- The program's directory under a home directory. -/
def homeDirectory (home : Option String) : String := home.getD "." ++ "/.herald"

/-- The configuration without any setting. -/
def defaults (home : Option String) : Config :=
  ⟨⟨homeDirectory home ++ "/herald.db"⟩, none, {}, {}⟩

/-- The file that is read when none is named. -/
def defaultPath (home : Option String) : String := homeDirectory home ++ "/herald.toml"

/-- The periods that may not be zero, in the order in which they are checked. -/
def periods (c : Config) : List (String × Nat) :=
  [("scheduler.sync_interval_secs", c.scheduler.syncIntervalSecs),
   ("dispatch.tick_millis", c.dispatch.tickMillis),
   ("dispatch.worker_period_secs", c.dispatch.workerPeriodSecs)]

/-- Refuses periods of zero. -/
def validate (c : Config) : Except ConfigError Config :=
  match c.periods.find? fun p => p.2 == 0 with
  | some p => .error (.zero p.1)
  | none => .ok c

/-- Loads the configuration from the text of a file, if there is one, and the environment. -/
def load (home : Option String) (file : Option String) (environment : List (String × String)) :
    Except ConfigError Config := do
  let lower ← match file with
    | none => pure (Setting.table .file [])
    | some text =>
      match Toml.parse? text with
      | some s => pure s
      | none => .error .malformed
  let settings := lower.merge (Environment.settings environment)
  match decode (defaults home) settings with
  | .error (fault, origin, path) => .error (.setting fault origin path)
  | .ok c => c.validate

end Config

end Courier

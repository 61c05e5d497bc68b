import Courier.Command.Jobs
import Courier.Command.Usage
import Courier.Config.Basic
import Courier.Program.Disk

/-!
One run of the program: from arguments and surroundings to what is printed.

The configuration is read from the file that the command line names, else from the one that the
environment names, else from the program's directory under the home directory.  A configuration that
cannot be used is replaced by the defaults.
-/

namespace Courier.Program

open Command

/-- What a run finds around it. -/
structure Surroundings where
  /-- The home directory. -/
  home : Option String
  /-- Variables with their values, in the order in which they were set. -/
  environment : List (String × String)
  /-- The working directory. -/
  directory : Path

/-- Why a run ends without doing what it was asked to do. -/
inductive ProgramError
  | usage (e : UsageError)
  | disk (e : DiskError)
  | jobs (e : Jobs.JobsError)
deriving DecidableEq

/-- The wording of an error. -/
def ProgramError.message : ProgramError → String
  | .usage e => e.message
  | .disk .blocked => "Error: the directory of the job catalog cannot be made"
  | .disk .unreadable => "Error: the job catalog cannot be opened"
  | .jobs e => "Error: " ++ e.message

/-- The status with which a run ends that fails. -/
def ProgramError.status : ProgramError → Nat
  | .usage e => e.status
  | _ => 1

/-- The variable that names the configuration file. -/
def configVariable : String := "HERALD_CONFIG"

/-- The variables of the environment that a run looks at. -/
def settingNames : List String :=
  [configVariable, "HERALD_DATABASE__PATH", "HERALD_TELEGRAM__BOT_TOKEN",
   "HERALD_SCHEDULER__SYNC_INTERVAL_SECS", "HERALD_SCHEDULER__SYNC_TIMEOUT_SECS",
   "HERALD_SCHEDULER__QUEUE_CAPACITY", "HERALD_DISPATCH__MAX_WORKERS",
   "HERALD_DISPATCH__TICK_MILLIS", "HERALD_DISPATCH__WORKER_PERIOD_SECS",
   "HERALD_DISPATCH__MAX_RETRY", "HERALD_DISPATCH__BUS_CAPACITY"]

namespace Surroundings

/-- The value of a variable; the last setting counts. -/
def setting? (w : Surroundings) (name : String) : Option String := w.environment.reverse.lookup name

/-- The file with the configuration. -/
def configPath (w : Surroundings) (named : Option String) : String :=
  match named with
  | some path => path
  | none => (w.setting? configVariable).getD (Config.defaultPath w.home)

/-- The configuration, given what its file holds. -/
def config (w : Surroundings) (file : Option Content) : Config :=
  let loaded := match file with
    | some (.text t) => Config.load w.home (some t) w.environment
    | some (.catalog _) => .error .malformed
    | none => Config.load w.home none w.environment
  match loaded with
  | .ok c => c
  | .error _ => Config.defaults w.home

end Surroundings

/-- What the arguments ask for, and the configuration for it. -/
def plan (w : Surroundings) (disk : Disk) (args : List String) :
    Except UsageError (Action × Config) :=
  match Line.parse args with
  | .error e => .error e
  | .ok line => .ok (line.action, w.config (disk.find? w.directory (w.configPath line.config)))

/-- Edits the catalog: the lines printed and the disk afterwards. -/
def edit (w : Surroundings) (disk : Disk) (config : Config) (newId : String) (now : Time.Instant)
    (command : JobsCommand) : Except ProgramError (List String) × Disk :=
  match disk.open? w.directory config.database.path with
  | .error e => (.error (.disk e), disk)
  | .ok (catalog, disk) =>
    match Jobs.run catalog newId now command with
    | .error e => (.error (.jobs e), disk)
    | .ok (lines, catalog) => (.ok lines, disk.store w.directory config.database.path catalog)

end Courier.Program

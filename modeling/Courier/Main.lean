import Courier.Job.Identifier
import Courier.Program.Basic
import Courier.Program.Content
import Courier.Service.Log
import Std.Time.DateTime.Timestamp

/-!
The program: arguments, environment, files and clocks around `Courier.Program` and
`Courier.Service`.

The `jobs` commands edit the catalog's file.  Everything else runs the service, which reads the file
again and again, and prints the lines of its log.
-/

namespace Courier.Program

open Command Json Time

/-- The text of a file, if there is one that can be read. -/
def readText? (p : Path) : IO (Option String) := do
  try
    return some (← IO.FS.readFile p.text)
  catch _ => return none

/-- The files that there are among some paths. -/
def readFiles (paths : List Path) : IO Disk := do
  let files ← paths.filterMapM fun p => do
    return (← readText? p).map fun t => (p, Content.ofText t)
  return ⟨files, []⟩

/-- Writes a file, and makes the directories above it. -/
def writeText (p : Path) (t : String) : IO Unit := do
  IO.FS.createDirAll (Path.text p.dropLast)
  IO.FS.writeFile p.text t

/-- The home directory, the environment and the working directory. -/
def surroundings : IO Surroundings := do
  let environment ← settingNames.filterMapM fun n => do return (← IO.getEnv n).map fun t => (n, t)
  return ⟨← IO.getEnv "HOME", environment, Path.resolve [] (← IO.currentDir).toString⟩

/-- The wall clock. -/
def present : IO Instant := do
  let nanos := (← Std.Time.Timestamp.now).toNanosecondsSinceUnixEpoch.val
  return (⟨0, 0⟩ : Instant).plus nanos.toNat

/-- An identifier for a new job. -/
def freshId : IO String := do
  let random := (← IO.getRandomBytes 10).toList.foldl (fun n b => 256 * n + b.toNat) 0
  let nanos := (← Std.Time.Timestamp.now).toNanosecondsSinceUnixEpoch.val
  return Identifier.make (nanos / nanosPerMilli).toNat random

/-- Carries an edit of the catalog out. -/
def runJobs (w : Surroundings) (config : Config) (command : JobsCommand) : IO UInt32 := do
  let path := Path.resolve w.directory config.database.path
  let disk ← readFiles [path]
  let (result, after) := edit w disk config (← freshId) (← present) command
  match after.content? path with
  | some c => writeText path c.toText
  | none => pure ()
  match result with
  | .ok lines =>
    lines.forM IO.println
    return 0
  | .error e =>
    IO.eprintln e.message
    return e.status.toUInt32

/-- Lets the service run on the catalog of a file; `start` is the reading of the machine's clock at
which it began. -/
partial def runService (path : Path) (start : Nat) (c : Clocked (Service Delivery.LogSender)) :
    IO Unit := do
  let catalog := ((← readText? path).map fun t => (Content.ofText t).toCatalog).getD .empty
  let passed := (← IO.monoMsNow) - start
  let c := (c.modify fun s => s.editCatalog fun _ => .ok catalog).pass (passed - c.moment.elapsed)
  for line in c.system.log do
    IO.println (ToValue.toValue line).text
  (← IO.getStdout).flush
  IO.sleep 50
  runService path start ((c.modify Service.forget).setWall (← present))

/-- Runs the service of a configuration. -/
def serve (w : Surroundings) (config : Config) : IO UInt32 := do
  let path := Path.resolve w.directory config.database.path
  match Service.launch config .empty Delivery.LogSender.mk with
  | .error e =>
    IO.eprintln e.message
    return 101
  | .ok service =>
    runService path (← IO.monoMsNow) ⟨service, 0, ← present⟩
    return 0

/-- Runs the program with its arguments. -/
def run (args : List String) : IO UInt32 := do
  let w ← surroundings
  let named := (Line.parse args).toOption.bind Line.config
  let disk ← readFiles (Path.candidates w.directory (w.configPath named))
  match plan w disk args with
  | .error e =>
    IO.eprintln e.message
    return e.status.toUInt32
  | .ok (.jobs command, config) => runJobs w config command
  | .ok (_, config) => serve w config

end Courier.Program

/-- The program. -/
def main (args : List String) : IO UInt32 := Courier.Program.run args

import Courier.Command.Arguments

/-!
The program's command line.

Without a subcommand, and with `serve`, the program runs; `jobs` edits the catalog.  The option for
the configuration file may stand at any level, and the innermost one counts.  A subcommand is read
to its end before what stands in front of it is checked.
-/

namespace Courier.Command

/-- An edit of the catalog. -/
inductive JobsCommand
  | list
  | add (name cron : String) (payload : Option String) (options : List String) (disabled : Bool)
  | enable (id : String)
  | disable (id : String)
  | remove (id : String)
deriving DecidableEq

/-- What the program is asked to do. -/
inductive Action
  /-- Nothing in particular, which is to run. -/
  | none
  | serve
  | jobs (command : JobsCommand)
deriving DecidableEq

/-- A command line. -/
structure Line where
  /-- The configuration file. -/
  config : Option String
  action : Action
deriving DecidableEq

namespace Line

/-! ### Grammars -/

/-- The options of every level. -/
def common : List Opt := [⟨"config", some 'c', .single⟩, ⟨"help", some 'h', .help⟩]

/-- A command with options of its own and perhaps a word. -/
def leaf (options : List Opt) (word : Bool) : Grammar := ⟨options ++ common, word, []⟩

/-- The options of `jobs add`. -/
def addOptions : List Opt :=
  [⟨"name", Option.none, .single⟩, ⟨"cron", Option.none, .single⟩,
   ⟨"payload", Option.none, .single⟩,
   ⟨"option", Option.none, .many⟩, ⟨"disabled", Option.none, .flag⟩]

/-- The subcommands of `jobs`. -/
def jobsCommands : List String := ["list", "add", "enable", "disable", "remove", "help"]

/-- The subcommands of the program. -/
def programCommands : List String := ["serve", "jobs", "help"]

/-- The subcommands of a subcommand, for paths to ask help on. -/
def subcommands : String → List String
  | "jobs" => jobsCommands
  | _ => []

/-- Help on the command that a path of subcommands names. -/
def help (commands : List String) : List String → UsageError
  | [] => .showHelp
  | arg :: rest => if commands.contains arg then help (subcommands arg) rest else .unknownCommand

/-! ### Reading -/

/-- Reads the arguments of a command without subcommands. -/
def readLeaf (G : Grammar) (args : List String) : Except UsageError Given := do
  let (g, _) ← G.scan {} args
  g.settle

/-- Reads the arguments of a command that takes an id. -/
def readId (command : String → JobsCommand) (args : List String) :
    Except UsageError (Option String × JobsCommand) := do
  let g ← readLeaf (leaf [] true) args
  match g.word with
  | some id => return (g.value? "config", command id)
  | Option.none => .error .missingArgument

/-- Reads the arguments of `jobs add`. -/
def readAdd (args : List String) : Except UsageError (Option String × JobsCommand) := do
  let g ← readLeaf (leaf addOptions false) args
  match g.value? "name", g.value? "cron" with
  | some name, some cron =>
    return (g.value? "config",
      .add name cron (g.value? "payload") (g.values "option") (g.value? "disabled").isSome)
  | _, _ => .error .missingArgument

/-- Reads the arguments of `jobs list`. -/
def readList (args : List String) : Except UsageError (Option String × JobsCommand) := do
  let g ← readLeaf (leaf [] false) args
  return (g.value? "config", .list)

/-- Reads a subcommand of `jobs`. -/
def readJobsCommand (command : String) (args : List String) :
    Except UsageError (Option String × JobsCommand) :=
  if command = "list" then readList args
  else if command = "add" then readAdd args
  else if command = "enable" then readId .enable args
  else if command = "disable" then readId .disable args
  else if command = "remove" then readId .remove args
  else .error (help jobsCommands args)

/-- Reads the arguments of `jobs`. -/
def readJobs (args : List String) : Except UsageError (Option String × Action) := do
  let (g, sub) ← Grammar.scan ⟨common, false, jobsCommands⟩ {} args
  match sub with
  | some (command, rest) =>
    let (config, c) ← readJobsCommand command rest
    let g ← g.settle
    return (config <|> g.value? "config", .jobs c)
  | Option.none =>
    let g ← g.settle
    if g.options.isEmpty then .error .showHelpOnNothing else .error .missingCommand

/-- Reads the arguments of `serve`. -/
def readServe (args : List String) : Except UsageError (Option String × Action) := do
  let g ← readLeaf (leaf [] false) args
  return (g.value? "config", .serve)

/-- Reads the arguments of the program. -/
def parse (args : List String) : Except UsageError Line := do
  let options := ⟨"version", some 'V', .version⟩ :: common
  let (g, sub) ← Grammar.scan ⟨options, false, programCommands⟩ {} args
  match sub with
  | some (command, rest) =>
    let (config, action) ←
      if command = "serve" then readServe rest
      else if command = "jobs" then readJobs rest
      else .error (help programCommands rest)
    let g ← g.settle
    return ⟨config <|> g.value? "config", action⟩
  | Option.none =>
    let g ← g.settle
    return ⟨g.value? "config", .none⟩

end Line

end Courier.Command

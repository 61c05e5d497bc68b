/-!
Reading the arguments of a command.

A `Grammar` says which options a command has, whether it takes a word, and which subcommands it has.
`Grammar.scan` reads arguments up to the end or to a subcommand.  An option's value is attached
(`-cf`, `--config=f`) or the next argument, which then may not look like an option; after `--`
everything is a word.  Whether an option has its value, and has been given only once, is checked
when the next one is met and at the end.
-/

namespace Courier.Command

/-- Why arguments are not accepted, or what is shown instead of running. -/
inductive UsageError
  | showHelp
  | showVersion
  /-- Help is shown because nothing was given. -/
  | showHelpOnNothing
  | unknownCommand
  | unknownArgument
  | missingArgument
  | missingCommand
  /-- An option is given twice. -/
  | repeated
  /-- An option lacks its value. -/
  | noValue
  /-- A flag has a value. -/
  | unwantedValue
deriving DecidableEq

/-- What an option takes. -/
inductive Arity
  /-- A value, once. -/
  | single
  /-- A value, any number of times. -/
  | many
  /-- No value, once. -/
  | flag
  | help
  | version
deriving DecidableEq

/-- An option. -/
structure Opt where
  name : String
  letter : Option Char
  arity : Arity
deriving DecidableEq

/-- What a command accepts. -/
structure Grammar where
  options : List Opt
  /-- Whether it takes one word. -/
  word : Bool
  commands : List String

/-- The arguments read so far. -/
structure Given where
  /-- Options with their values, in order. -/
  options : List (String × String) := []
  /-- The option read last, with its value if that has been read. -/
  pending : Option (Opt × Option String) := none
  word : Option String := none
  /-- Whether everything from here on is a word. -/
  words : Bool := false

namespace Given

/-- Adds an option with its value. -/
def add (g : Given) (o : Opt) (value : String) : Except UsageError Given :=
  if o.arity ≠ .many ∧ g.options.any fun p => p.1 == o.name then .error .repeated
  else .ok { g with options := g.options ++ [(o.name, value)] }

/-- Adds the pending option, which must have its value. -/
def settle (g : Given) : Except UsageError Given :=
  match g.pending with
  | none => .ok g
  | some (_, none) => .error .noValue
  | some (o, some value) => Given.add { g with pending := none } o value

/-- Whether the next argument is the value of the pending option. -/
def awaiting (g : Given) : Bool :=
  match g.pending with
  | some (_, none) => true
  | _ => false

/-- The values of an option, in order. -/
def values (g : Given) (name : String) : List String :=
  g.options.filterMap fun p => if p.1 = name then some p.2 else none

/-- The last value of an option. -/
def value? (g : Given) (name : String) : Option String := (g.values name).getLast?

end Given

namespace Grammar

/-- Reads an option, with a value that is attached to it. -/
def option (g : Given) (o : Opt) (attached : Option String) : Except UsageError Given :=
  match o.arity, attached with
  | .single, none | .many, none => do
    let g ← g.settle
    return { g with pending := some (o, none) }
  | .single, some v | .many, some v => do
    let g ← g.settle
    g.add o v
  | _, some _ => .error .unwantedValue
  | .flag, none => do
    let g ← g.settle
    g.add o "true"
  | .help, none => do
    let _ ← g.settle
    .error .showHelp
  | .version, none => do
    let _ ← g.settle
    .error .showVersion

/-- The parts of a text before and after its first equals sign. -/
def splitAtEquals (cs : List Char) : List Char × Option (List Char) :=
  match cs.dropWhile (· ≠ '=') with
  | [] => (cs, none)
  | _ :: value => (cs.takeWhile (· ≠ '='), some value)

/-- Reads an option by its name. -/
def long (G : Grammar) (g : Given) (cs : List Char) : Except UsageError Given :=
  let (name, value) := splitAtEquals cs
  match G.options.find? fun o => o.name == String.ofList name with
  | none => .error .unknownArgument
  | some o => option g o (value.map String.ofList)

/-- Reads an option by its letter; the rest, perhaps after an equals sign, is its value. -/
def short (G : Grammar) (g : Given) (letter : Char) (rest : List Char) : Except UsageError Given :=
  match G.options.find? fun o => o.letter == some letter with
  | none => .error .unknownArgument
  | some o =>
    match o.arity, rest with
    | .single, '=' :: value | .many, '=' :: value => option g o (some (String.ofList value))
    | .single, _ :: _ | .many, _ :: _ => option g o (some (String.ofList rest))
    | _, _ => option g o none

/-- Reads a word. -/
def readWord (G : Grammar) (g : Given) (arg : String) : Except UsageError Given :=
  if G.word ∧ g.word.isNone then do
    let g ← g.settle
    return { g with word := some arg }
  else if G.commands.isEmpty ∨ (g.words ∧ G.commands.contains arg) then .error .unknownArgument
  else .error .unknownCommand

/-- Reads arguments up to the end, or to a subcommand, which is given with the arguments
after it. -/
def scan (G : Grammar) (g : Given) :
    List String → Except UsageError (Given × Option (String × List String))
  | [] => .ok (g, none)
  | arg :: rest =>
    if g.words then do scan G (← G.readWord g arg) rest
    else if !g.awaiting ∧ G.commands.contains arg then .ok (g, some (arg, rest))
    else
      match arg.toList with
      | ['-', '-'] => scan G { g with words := true } rest
      | '-' :: '-' :: cs => do scan G (← G.long g cs) rest
      | '-' :: c :: cs => do scan G (← G.short g c cs) rest
      | _ =>
        match g.pending with
        | some (o, none) => scan G { g with pending := some (o, some arg) } rest
        | _ => do scan G (← G.readWord g arg) rest

end Grammar

end Courier.Command

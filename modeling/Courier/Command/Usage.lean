import Courier.Command.Arguments

/-!
What is said about arguments that are not accepted.
-/

namespace Courier.Command

/-- The status with which the program ends: asking for help or the version is no failure. -/
def UsageError.status : UsageError → Nat
  | .showHelp | .showVersion => 0
  | _ => 2

/-- The name of the program and its version. -/
def version : String := "herald 0.1.0"

/-- How the program is used. -/
def usage : String :=
  "Cron-driven notification service for Telegram\n\n" ++
  "Usage: herald [--config FILE] [serve]\n" ++
  "       herald [--config FILE] jobs list\n" ++
  "       herald [--config FILE] jobs add --name NAME --cron EXPR [--payload JSON]\n" ++
  "                                       [--option TYPE=VALUE]... [--disabled]\n" ++
  "       herald [--config FILE] jobs enable|disable|remove ID"

/-- The wording of an error. -/
def UsageError.message : UsageError → String
  | .showHelp | .showHelpOnNothing => usage
  | .showVersion => version
  | .unknownCommand => "error: unrecognized subcommand\n\n" ++ usage
  | .unknownArgument => "error: unexpected argument\n\n" ++ usage
  | .missingArgument => "error: a required argument was not provided\n\n" ++ usage
  | .missingCommand => "error: a subcommand is required\n\n" ++ usage
  | .repeated => "error: an argument cannot be used multiple times\n\n" ++ usage
  | .noValue => "error: a value is required for an argument\n\n" ++ usage
  | .unwantedValue => "error: a value is given to an argument that takes none\n\n" ++ usage

end Courier.Command

namespace Refit.Command

def version : String := "modernizer 0.1.0\n"

def overview : String :=
  "Migrate legacy Java sources inside a build-verified sandbox\n\n" ++
  "Usage: modernizer <COMMAND>\n\n" ++
  "Commands:\n" ++
  "  migrate  Migrate a file or source tree to a new framework\n" ++
  "  help     Print this message or the help of the given subcommand(s)\n\n" ++
  "Options:\n" ++
  "  -h, --help     Print help\n" ++
  "  -V, --version  Print version\n"

def migrateHelp : String :=
  "Migrate a file or source tree to a new framework\n\n" ++
  "Usage: modernizer migrate [OPTIONS] <PATH>\n\n" ++
  "Arguments:\n" ++
  "  <PATH>  A .java file or a directory to search for .java files\n\n" ++
  "Options:\n" ++
  "      --target <TARGET>  Framework to migrate to [default: webflux]\n" ++
  "      --dry-run          Show diffs without writing anything to the project\n" ++
  "  -y, --auto-approve     Apply every change without asking\n" ++
  "  -h, --help             Print help\n"

inductive Scope where
  | program
  | migrate
  deriving DecidableEq, Repr

def Scope.usage : Scope → String
  | program => "modernizer <COMMAND>"
  | migrate => "modernizer migrate [OPTIONS] <PATH>"

inductive UsageError where
  | nothingGiven
  | missingCommand
  | unknownCommand (name : String)
  /-- An argument that has no place; one with a hyphen may have been meant as a path. -/
  | unexpected (argument : String) (scope : Scope) (hyphen : Bool)
  | unexpectedValue (value option : String) (scope : Scope)
  | repeated (option : String) (scope : Scope)
  | missingValue (option : String)
  /-- The path is missing; `used` are the options that were given. -/
  | missingPath (used : List String)
  deriving DecidableEq, Repr

namespace UsageError

def usageOf : UsageError → Option String
  | nothingGiven | missingValue _ => none
  | missingCommand | unknownCommand _ => some Scope.program.usage
  | unexpected _ scope _ | unexpectedValue _ _ scope | repeated _ scope => some scope.usage
  | missingPath used => some (" ".intercalate ("modernizer migrate" :: used ++ ["<PATH>"]))

def tip (argument : String) : String :=
  "\n\n  tip: to pass '" ++ argument ++ "' as a value, use '-- " ++ argument ++ "'"

def reason : UsageError → String
  | nothingGiven => ""
  | missingCommand =>
    "'modernizer' requires a subcommand but one was not provided\n" ++
    "  [subcommands: migrate, m, help]"
  | unknownCommand name => "unrecognized subcommand '" ++ name ++ "'"
  | unexpected argument scope hyphen =>
    "unexpected argument '" ++ argument ++ "' found" ++
      if hyphen && scope == .migrate then tip argument else ""
  | unexpectedValue value option _ =>
    "unexpected value '" ++ value ++ "' for '" ++ option ++ "' found; no more were expected"
  | repeated option _ => "the argument '" ++ option ++ "' cannot be used multiple times"
  | missingValue option => "a value is required for '" ++ option ++ "' but none was supplied"
  | missingPath _ => "the following required arguments were not provided:\n  <PATH>"

def message (e : UsageError) : String :=
  if e = nothingGiven then overview
  else
    let usage := match e.usageOf with
      | some usage => "\n\nUsage: " ++ usage
      | none => ""
    "error: " ++ e.reason ++ usage ++ "\n\nFor more information, try '--help'.\n"

end UsageError

end Refit.Command

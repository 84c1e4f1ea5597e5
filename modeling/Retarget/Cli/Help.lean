import Retarget.Cli.Request

/-!
# Help on the command line

The texts that explain the commands, one for each `Topic`.
-/

namespace Retarget.Cli.Topic

/-- The name of the program. -/
def programName : String := "target-migrate"

/-- The name and version of the program. -/
def version : String :=
  programName ++ " 0.1.0\n"

/-- The commands with what they do. -/
def commands : List String :=
  [ "Commands:"
  , "  migrate   Migrate every target bound to a profile's executor"
  , "  extract   Print the first argument of named calls in a config file"
  , "  profiles  List built-in profiles"
  , "  help      Print this message or the help of the given subcommand(s)" ]

/-- The options that every command takes. -/
def sharedOptions : List String :=
  [ "      --log-level <LOG_LEVEL>  Log verbosity (RUST_LOG takes precedence) [default: warn] [possible"
  , "                               values: trace, debug, info, warn, error]"
  , "  -h, --help                   Print help" ]

/-- The lines of a help text. -/
def lines : Topic → List String
  | program =>
    [ "Migrate executor targets to inferred plugins"
    , ""
    , "Usage: target-migrate [OPTIONS] <COMMAND>"
    , "" ] ++ commands ++
    [ ""
    , "Options:" ] ++ sharedOptions ++
    [ "  -V, --version                Print version" ]
  | migrate =>
    [ "Migrate every target bound to a profile's executor"
    , ""
    , "Usage: target-migrate migrate [OPTIONS] [PATH]"
    , ""
    , "Arguments:"
    , "  [PATH]  Path to the workspace root [default: .]"
    , ""
    , "Options:"
    , "  -p, --profile <PROFILE>      Built-in profile name or path to a YAML/JSON profile [default:"
    , "                               webpack]"
    , "      --project <PROJECT>      Only migrate this project"
    , "      --skip-format            Do not run the formatter afterwards"
    , "      --dry-run                Preview changes without applying"
    , "      --allow-dirty            Run even if the git working tree has uncommitted changes"
    , "      --formatter <FORMATTER>  Formatter command run over written files" ] ++ sharedOptions
  | extract =>
    [ "Print the first argument of named calls in a config file"
    , ""
    , "Usage: target-migrate extract [OPTIONS] --callee <CALLEES> <FILE>"
    , ""
    , "Arguments:"
    , "  <FILE>  File to read"
    , ""
    , "Options:"
    , "  -c, --callee <CALLEES>       Callee names to look for"
    , "      --strict                 Fail if a callee is called more than once" ] ++ sharedOptions
  | profiles =>
    [ "List built-in profiles"
    , ""
    , "Usage: target-migrate profiles [OPTIONS]"
    , ""
    , "Options:" ] ++ sharedOptions
  | help =>
    [ "Print this message or the help of the given subcommand(s)"
    , ""
    , "Usage: target-migrate help [COMMAND]"
    , "" ] ++ commands

/-- A help text. -/
def text (t : Topic) : String :=
  String.join (t.lines.map (· ++ "\n"))

end Retarget.Cli.Topic

/-
WorkspaceAudit/CommandLine/Help.lean

What the command line says about itself.
-/
import WorkspaceAudit.CommandLine.Arguments

namespace WorkspaceAudit.CommandLine

/-- What the program is for, in a line. -/
def purpose : String :=
  "Scans a Solana program workspace for source and dependency problems"

/-- What the program is for, with what it reports. -/
def longPurpose : String :=
  "Scans a Solana program workspace and writes a flat text report of:\n" ++
  "- Rust sources using ProgramResult\n" ++
  "- Rust sources with unbalanced braces, parentheses or brackets\n" ++
  "- Cargo.toml dependencies whose version or path differs from the pinned table"

namespace Flag

/-- What a flag does; the help tells of its other form. -/
def explanation (long : Bool) : Flag → String
  | config => "Path to JSON configuration file"
  | root => "Workspace root directory"
  | sourceDir => "Source directory to check, relative to the root"
  | report => "Text report path"
  | json => "Also export results to a JSON file"
  | quiet => "Suppress the terminal summary"
  | logLevel => "Set logging level (default: INFO)"
  | logFile => "Log file path, appended to on every run"
  | help =>
    if long then "Print help (see a summary with '-h')" else "Print help (see more with '--help')"
  | version => "Print version"

/-- The value that a flag has where it is not given. -/
def initial? : Flag → Option String
  | logLevel => some "info"
  | logFile => some Arguments.none.logFile.shown
  | _ => none

/-- The start of the line of a flag, up to its explanation. -/
def heading (f : Flag) : String :=
  (match f.letter? with
    | some c => String.ofList [' ', ' ', '-', c, ',', ' ']
    | none => "      ") ++ f.usage

/-- The column in which explanations stand in the short help. -/
def column : Nat :=
  (all.map fun f => f.heading.length).foldl max 0 + 2

/-- A flag on one line. -/
def shortHelp (f : Flag) : String :=
  f.heading ++ String.ofList (List.replicate (column - f.heading.length) ' ') ++
    f.explanation false ++
    (match f.initial? with
      | some v => " [default: " ++ v ++ "]"
      | none => "") ++ "\n"

/-- A flag with its explanation on the lines below. -/
def longHelp (f : Flag) : String :=
  let margin := "          "
  f.heading ++ "\n" ++ margin ++ f.explanation true ++ "\n" ++
    match f.initial? with
    | some v => margin ++ "\n" ++ margin ++ "[default: " ++ v ++ "]\n"
    | none => ""

end Flag

/-- The help. -/
def help (long : Bool) : String :=
  (if long then longPurpose else purpose) ++ "\n\n" ++ usageLine [] ++ "\n\nOptions:\n" ++
    if long then "\n".intercalate (Flag.all.map Flag.longHelp)
    else String.join (Flag.all.map Flag.shortHelp)

/-- The name and the version of the program. -/
def versionLine : String :=
  programName ++ " 0.1.0\n"

end WorkspaceAudit.CommandLine

/-
WorkspaceAudit/CommandLine/Arguments.lean

The arguments of the command line.

Arguments are read from left to right.  An option waits for its value until
the next argument, and what it was given is looked at only when the next
option comes or the line ends; so of two mistakes the one that is met first
in this order is told.
-/
import WorkspaceAudit.Log.Line
import WorkspaceAudit.Path
import WorkspaceAudit.Text.Similarity

namespace WorkspaceAudit.CommandLine

/-! ### Options -/

/-- A switch or a setting of the command line. -/
inductive Flag
  | config
  | root
  | sourceDir
  | report
  | json
  | quiet
  | logLevel
  | logFile
  | help
  | version
  deriving DecidableEq, Repr

namespace Flag

/-- All of them, in the order in which they are explained. -/
def all : List Flag :=
  [config, root, sourceDir, report, json, quiet, logLevel, logFile, help, version]

/-- The name after two hyphens. -/
def name : Flag → String
  | config => "config"
  | root => "root"
  | sourceDir => "source-dir"
  | report => "report"
  | json => "json"
  | quiet => "quiet"
  | logLevel => "log-level"
  | logFile => "log-file"
  | help => "help"
  | version => "version"

/-- The letter after one hyphen. -/
def letter? : Flag → Option Char
  | help => some 'h'
  | version => some 'V'
  | _ => none

/-- Whether a value is given with it. -/
def takesValue : Flag → Bool
  | quiet | help | version => false
  | _ => true

/-- The name of the value: the flag in capitals. -/
def valueName (f : Flag) : String :=
  String.ofList (f.name.toList.map fun c => if c = '-' then '_' else c.toUpper)

/-- The flag as it is written, with the name of its value. -/
def usage (f : Flag) : String :=
  "--" ++ f.name ++ if f.takesValue then " <" ++ f.valueName ++ ">" else ""

/-- The flag of a name. -/
def ofName? (name : String) : Option Flag :=
  all.find? fun f => f.name == name

/-- The flag whose name resembles a word most, the last of several, if one
does enough. -/
def similar? (word : String) : Option Flag :=
  let ratios := all.map fun f => (f, Text.Similarity.ratio word.toList f.name.toList)
  let near := ratios.filter fun (_, p, q) => 7 * q < 10 * p
  (near.foldl (fun best c =>
    match best with
    | none => some c
    | some b => if b.2.1 * c.2.2 ≤ c.2.1 * b.2.2 then some c else best) none).map Prod.fst

end Flag

/-! ### Mistakes -/

/-- A mistake in the arguments. -/
inductive UsageError
  /-- An argument that means nothing; `used` are the flags to show how
  arguments are given. -/
  | unexpected (argument : String) (similar : Option Flag) (used : List Flag)
  | valueMissing (f : Flag)
  | repeated (f : Flag)
  | unknownLevel (value : String)
  | valueUnneeded (f : Flag) (value : String) (used : List Flag)
  /-- A value that must be text is none. -/
  | notText
  deriving DecidableEq, Repr

/-- The name of the program. -/
def programName : String := "program_diagnostic"

/-- How arguments are given: those that were used, or any. -/
def usageLine (used : List Flag) : String :=
  "Usage: " ++ programName ++
    match used with
    | [] => " [OPTIONS]"
    | fs => String.join (fs.map fun f => " " ++ f.usage)

/-- A mistake in words: what is wrong, a tip and how arguments are given, as
far as they apply, with empty lines between them. -/
def UsageError.message (e : UsageError) : String :=
  let quoted (s : String) := "'" ++ s ++ "'"
  let parts : List String := match e with
    | unexpected a similar used =>
      ["unexpected argument " ++ quoted a ++ " found"] ++
      (match similar with
        | some f => ["  tip: a similar argument exists: " ++ quoted ("--" ++ f.name)]
        | none => []) ++
      [usageLine used]
    | valueMissing f =>
      ["a value is required for " ++ quoted f.usage ++ " but none was supplied"]
    | repeated f =>
      ["the argument " ++ quoted f.usage ++ " cannot be used multiple times", usageLine []]
    | unknownLevel v =>
      ["invalid value " ++ quoted v ++ " for " ++ quoted Flag.logLevel.usage ++
        ": attempted to convert a string that doesn't match an existing log level"]
    | valueUnneeded f v used =>
      ["unexpected value " ++ quoted v ++ " for " ++ quoted f.usage ++
        " found; no more were expected", usageLine used]
    | notText =>
      ["invalid UTF-8 was detected in one or more arguments", usageLine []]
  "error: " ++ "\n\n".intercalate (parts ++ ["For more information, try '--help'.\n"])

/-! ### Reading -/

/-- What the arguments say of a run. -/
structure Arguments where
  config : Option Path
  root : Option Path
  sourceDir : Option Path
  report : Option Path
  json : Option Path
  quiet : Bool
  logLevel : Log.Threshold
  logFile : Path
  deriving DecidableEq

/-- No arguments. -/
def Arguments.none : Arguments :=
  { config := .none, root := .none, sourceDir := .none, report := .none, json := .none
    quiet := false, logLevel := .upTo .info
    logFile := Bytes.ofText "solana_program_diagnostic.log" }

/-- Sets a path. -/
def Arguments.setPath (a : Arguments) (p : Path) : Flag → Arguments
  | .config => { a with config := some p }
  | .root => { a with root := some p }
  | .sourceDir => { a with sourceDir := some p }
  | .report => { a with report := some p }
  | .json => { a with json := some p }
  | .logFile => { a with logFile := p }
  | _ => a

/-- What the command line asks for. -/
inductive Request
  | run (a : Arguments)
  | help (long : Bool)
  | version

/-- Why reading stops before the end: a mistake, or a request that needs no
more arguments. -/
inductive Stop
  | mistake (e : UsageError)
  | request (r : Request)

/-- What was read so far. -/
structure Reading where
  arguments : Arguments
  /-- The flags so far, in order. -/
  used : List Flag
  /-- A flag with the value it was given, which was not looked at yet. -/
  pending : Option (Flag × Option Bytes)

namespace Reading

/-- Looks at the value of a flag. -/
def accept (a : Arguments) (f : Flag) (value : Bytes) : Except UsageError Arguments :=
  if f = .logLevel then
    match value.text? with
    | none => .error .notText
    | some v =>
      match Log.Threshold.ofName? v with
      | some t => .ok { a with logLevel := t }
      | none => .error (.unknownLevel v)
  else if value.isEmpty then .error (.valueMissing f)
  else .ok (a.setPath value f)

/-- Takes a flag with its value into account.  Also says which flags were
used, even if there is a mistake. -/
def take (r : Reading) (f : Flag) (value : Option Bytes) :
    List Flag × Except UsageError Reading :=
  match f.takesValue, value with
  | true, none => (r.used, .error (.valueMissing f))
  | _, value =>
    if r.used.contains f then (r.used.erase f, .error (.repeated f))
    else
      let used := r.used ++ [f]
      let taken := match value with
        | some v => accept r.arguments f v
        | none => .ok { r.arguments with quiet := true }
      (used, taken.map fun a => ⟨a, used, none⟩)

/-- Looks at what is pending. -/
def settle (r : Reading) : List Flag × Except UsageError Reading :=
  match r.pending with
  | none => (r.used, .ok r)
  | some (f, value) => { r with pending := none }.take f value

/-- Looks at what is pending, and stops at a mistake. -/
def settled (r : Reading) : Except Stop Reading :=
  r.settle.2.mapError .mistake

/-- Flags and one more, if it is not among them. -/
def withFlag (used : List Flag) (f : Flag) : List Flag :=
  if used.contains f then used else used ++ [f]

/-- An argument that means nothing.  What is pending only counts as used. -/
def unexpected (r : Reading) (argument : String) (similar : Option Flag) : Stop :=
  let used := r.settle.1
  .mistake (.unexpected argument similar
    (match similar with
      | some f => withFlag used f
      | none => used))

/-- A flag, and the value after its equals sign. -/
def flag (r : Reading) (f : Flag) (value : Option Bytes) : Except Stop Reading :=
  match f.takesValue, value with
  | true, some v => do
    let r ← r.settled
    (r.take f (some v)).2.mapError .mistake
  | true, none => do
    let r ← r.settled
    return { r with pending := some (f, none) }
  | false, some v =>
    .error (.mistake (.valueUnneeded f v.shown (withFlag r.used f)))
  | false, none => do
    let r ← r.settled
    match f with
    | .help => .error (.request (.help true))
    | .version => .error (.request .version)
    | f => (r.take f none).2.mapError .mistake

/-- An argument after two hyphens. -/
def long (r : Reading) (body : Bytes) : Except Stop Reading :=
  let name : Bytes := body.takeWhile (· != 0x3D)
  let value : Option Bytes := match body.dropWhile (· != 0x3D) with
    | [] => none
    | _ :: v => some v
  match name.text?.bind Flag.ofName? with
  | some f => r.flag f value
  | none => .error (r.unexpected ("--" ++ name.shown) (Flag.similar? name.shown))

/-- An argument after one hyphen, of which the first letter decides. -/
def short (r : Reading) (body : Bytes) : Except Stop Reading :=
  match body.shown.toList with
  | 'h' :: _ => do
    let _ ← r.settled
    .error (.request (.help false))
  | 'V' :: _ => do
    let _ ← r.settled
    .error (.request .version)
  | c :: cs =>
    let argument := if c = '\uFFFD' then '-' :: c :: cs else ['-', c]
    .error (.mistake (.unexpected (String.ofList argument) none []))
  | [] => .ok r

/-- The arguments from here on. -/
def all (r : Reading) : List Bytes → Except Stop Reading
  | [] => r.settled
  | a :: as =>
    match a with
    | [0x2D, 0x2D] =>
      match as with
      | [] => r.settled
      | b :: _ => .error (.mistake (.unexpected b.shown none []))
    | 0x2D :: 0x2D :: body => do all (← r.long body) as
    | 0x2D :: b :: body => do all (← r.short (b :: body)) as
    | a =>
      match r.pending with
      | some (f, none) => all { r with pending := some (f, some a) } as
      | _ => .error (.mistake (.unexpected a.shown none []))

end Reading

/-- What a list of arguments asks for, or what is wrong with it. -/
def request (arguments : List Bytes) : Except UsageError Request :=
  match Reading.all ⟨.none, [], none⟩ arguments with
  | .ok r => .ok (.run r.arguments)
  | .error (.request r) => .ok r
  | .error (.mistake e) => .error e

end WorkspaceAudit.CommandLine

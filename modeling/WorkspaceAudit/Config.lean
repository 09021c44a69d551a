/-
WorkspaceAudit/Config.lean

The settings of a scan.

Every setting has a default; a configuration file and the command line
replace some of them.  `Config.text` is the JSON object that holds all of
them, and `WorkspaceAudit/Config/Reader.lean` reads it back.
-/
import WorkspaceAudit.Expectation
import WorkspaceAudit.Json.Value
import WorkspaceAudit.Path

namespace WorkspaceAudit

/-- The settings of a scan. -/
structure Config where
  /-- The directory that is scanned; without it there is no report. -/
  root : Path
  /-- The directory of the sources, seen from the root. -/
  sourceDir : Path
  /-- The pattern of the names of sources. -/
  sourcePattern : String
  /-- The pattern of the names of manifests. -/
  manifestName : String
  reportFile : Path
  /-- Where the findings are written as JSON, if anywhere. -/
  jsonReport : Option Path
  expectations : Expectations
  deriving DecidableEq

namespace Config

/-- The settings that hold where nothing is configured. -/
def initial : Config where
  root := Bytes.ofText "/var/www/html/program/safe_pump"
  sourceDir := Bytes.ofText "solana-program/src"
  sourcePattern := "*.rs"
  manifestName := "Cargo.toml"
  reportFile := Bytes.ofText "solana_program_diagnostic_report.txt"
  jsonReport := none
  expectations := .builtin

/-- The directory of the sources. -/
def sourceRoot (c : Config) : Path :=
  c.root.join c.sourceDir

/-- Whether two configurations say the same; paths are compared step by
step. -/
def same (c d : Config) : Bool :=
  c.root.same d.root && c.sourceDir.same d.sourceDir &&
  c.sourcePattern == d.sourcePattern && c.manifestName == d.manifestName &&
  c.reportFile.same d.reportFile &&
  (match c.jsonReport, d.jsonReport with
    | none, none => true
    | some p, some q => p.same q
    | _, _ => false) &&
  c.expectations == d.expectations

/-! ### As JSON -/

/-- An expectation as JSON. -/
def expectationJson (e : Expectation) : Json.Value :=
  .object [("name", .string e.name), ("version", .string e.version), ("path", .string e.path)]

/-- A table of expectations as JSON. -/
def expectationsJson (t : Expectations) : Json.Value :=
  .array (t.entries.map expectationJson)

/-- A path as JSON. -/
def pathJson (p : Path) : Json.Value :=
  .string p.shown

/-- The members of a configuration as JSON. -/
def members (c : Config) : List (String × Json.Value) :=
  [("root", pathJson c.root),
   ("source_dir", pathJson c.sourceDir),
   ("source_pattern", .string c.sourcePattern),
   ("manifest_name", .string c.manifestName),
   ("report_file", pathJson c.reportFile),
   ("json_report", (c.jsonReport.map pathJson).getD .null),
   ("expectations", expectationsJson c.expectations)]

/-- A configuration as JSON on one line. -/
def text (c : Config) : String :=
  String.ofList (Json.Value.object c.members).compact

end Config

end WorkspaceAudit

/-
WorkspaceAudit/CommandLine/Run.lean

A run from the command line.

The configuration is loaded, the arguments replace some of its settings and
the workspace is scanned.  A run shows its log on the console and adds it to
the log file; the summary goes to the standard output.
-/
import WorkspaceAudit.CommandLine.Help
import WorkspaceAudit.Diagnosis
import WorkspaceAudit.Summary

namespace WorkspaceAudit.CommandLine

/-- What a run finds around it. -/
structure Surroundings where
  tree : FileTree
  /-- The time, as it stands before the lines of the log. -/
  stamp : String
  /-- Whether the console takes what is written to it. -/
  consoleIsOpen : Bool
  /-- Whether the output is in colour. -/
  colours : Bool

/-- What a run leaves behind. -/
structure Ending where
  tree : FileTree
  exitCode : Nat
  /-- The standard output, once it is known how long the run took. -/
  output : Duration → String
  /-- What the console has shown. -/
  console : Bytes

/-- An ending that changes no file. -/
def Ending.quick (w : Surroundings) (exitCode : Nat) (output console : String) : Ending :=
  ⟨w.tree, exitCode, fun _ => output, if w.consoleIsOpen then Bytes.ofText console else []⟩

/-- The configuration with the settings that the arguments replace. -/
def Arguments.override (a : Arguments) (c : Config) : Config :=
  { c with
    root := a.root.getD c.root
    sourceDir := a.sourceDir.getD c.sourceDir
    reportFile := a.report.getD c.reportFile
    jsonReport := a.json.or c.jsonReport }

/-- The session of a run: its log goes to the log file too, unless that
cannot be opened. -/
def session (w : Surroundings) (a : Arguments) : Session :=
  let recorder : Recorder := ⟨a.logLevel, w.stamp, none, w.consoleIsOpen⟩
  match w.tree.openFile a.logFile with
  | .ok (tree, loc) => ⟨tree, [], [], { recorder with file? := some loc }⟩
  | .error _ => ⟨w.tree, [], [], recorder⟩

/-- A text whose lines after the first stand below the start of the first,
seven columns in. -/
def indented (text : String) : String :=
  "\n       ".intercalate (text.splitOn "\n")

/-- A failed run on the console: what failed, and its causes numbered. -/
def failureText (e : RunError) : String :=
  "Error: " ++ e.stage.message ++ "\n\nCaused by:\n    0: " ++ indented e.error.message ++
    "\n    1: " ++ indented e.error.reason ++ "\n"

/-- The standard output of a run that found a workspace. -/
def outputText (colours : Bool) (c : Config) (f : Findings) (elapsed : Duration) : String :=
  Summary.text colours elapsed f ++ "\n" ++
    String.ofList (Paint.on colours .green "Report:".toList) ++ " " ++ c.reportFile.shown ++ "\n"

/-- A run with these arguments. -/
def runWith (w : Surroundings) (a : Arguments) : Ending :=
  match (Config.load a.config).run (session w a) with
  | (.error e, s) =>
    let ((), s) := (Run.say .error e.chain).run s
    ⟨s.tree, 2, fun _ => "", s.console⟩
  | (.ok c, s) =>
    let c := a.override c
    match (Diagnosis.run c).run s with
    | (.error e, s) => ⟨s.tree, 1, fun _ => "", (s.display (failureText e)).console⟩
    | (.ok none, s) => ⟨s.tree, 0, fun _ => "", s.console⟩
    | (.ok (some f), s) =>
      ⟨s.tree, 0, fun elapsed => if a.quiet then "" else outputText w.colours c f elapsed,
        s.console⟩

/-- The whole program. -/
def run (w : Surroundings) (arguments : List Bytes) : Ending :=
  match request arguments with
  | .error e => .quick w 2 "" e.message
  | .ok (.help long) => .quick w 0 (help long) ""
  | .ok .version => .quick w 0 versionLine ""
  | .ok (.run a) => runWith w a

end WorkspaceAudit.CommandLine

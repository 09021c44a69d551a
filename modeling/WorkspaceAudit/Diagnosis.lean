/-
WorkspaceAudit/Diagnosis.lean

A whole run: scan the workspace and write the reports.

Without a root nothing is scanned and nothing is written.  The text is
written first; if that fails, the JSON is not tried.
-/
import WorkspaceAudit.Config.Reader
import WorkspaceAudit.Report
import WorkspaceAudit.Scan

namespace WorkspaceAudit

/-- What a run was doing when it failed. -/
inductive Stage
  | preparing
  | reporting
  | exporting
  deriving DecidableEq, Repr

/-- What is said about a failure of a stage. -/
def Stage.message : Stage → String
  | preparing => "Invalid scanner configuration"
  | reporting => "Failed to generate diagnostic report"
  | exporting => "Failed to export JSON results"

/-- Why a run failed. -/
structure RunError where
  stage : Stage
  error : AuditError
  deriving DecidableEq, Repr

/-- The stage, the error and its reason, as a chain of causes. -/
def RunError.chain (e : RunError) : String :=
  e.stage.message ++ ": " ++ e.error.chain

open Run

/-! ### Configuration files -/

namespace Config

/-- The configuration that a text writes; `origin` is the path to name if
it writes none. -/
def ofText (text : String) (origin : Path) : Except AuditError Config :=
  (ofJson text).mapError (.configMalformed origin)

/-- The configuration of a file.  Without a path, and with a warning where
there is nothing at the path, every setting has its default. -/
def load : Option Path → Run (Except AuditError Config)
  | none => return .ok initial
  | some p => do
    if ← ask (·.hasPath p) then
      match ← ask (·.readText p) with
      | .error e => return .error (.configUnreadable p e)
      | .ok text =>
        match ofText text p with
        | .error e => return .error e
        | .ok c =>
          say .info ("Loaded configuration from " ++ p.shown)
          return .ok c
    else
      say .warn ("Configuration file not found: " ++ p.shown ++ ", using defaults")
      return .ok initial

end Config

/-! ### Writing reports -/

namespace Report

/-- Writes the report as text. -/
def write (f : Findings) (p : Path) : Run (Except AuditError Unit) := do
  match ← Run.write p (Bytes.ofText (text f)) with
  | .error e => return .error (.reportUnwritable p e)
  | .ok () =>
    if f.isEmpty then say .info nothingFound
    say .info ("Diagnostic report generated at " ++ p.shown)
    return .ok ()

/-- Writes the report as JSON. -/
def writeJson (f : Findings) (p : Path) : Run (Except AuditError Unit) := do
  match ← Run.write p (Bytes.ofText (jsonText f)) with
  | .error e => return .error (.reportUnwritable p e)
  | .ok () =>
    say .info ("JSON results exported to " ++ p.shown)
    return .ok ()

end Report

/-! ### The run -/

namespace Diagnosis

/-- Writes the reports that are configured. -/
def report (c : Config) (f : Findings) : Run (Except RunError Unit) := do
  match ← Report.write f c.reportFile with
  | .error e => return .error ⟨.reporting, e⟩
  | .ok () =>
    match c.jsonReport with
    | none => return .ok ()
    | some p =>
      match ← Report.writeJson f p with
      | .error e => return .error ⟨.exporting, e⟩
      | .ok () => return .ok ()

/-- A whole run; it finds nothing to scan where there is no root. -/
def run (c : Config) : Run (Except RunError (Option Findings)) := do
  say .info "Starting diagnostic scan..."
  if ← ask (·.hasPath c.root) then
    match ← Scan.workspace c with
    | .error e => return .error ⟨.preparing, e⟩
    | .ok f =>
      match ← report c f with
      | .error e => return .error e
      | .ok () => return .ok (some f)
  else
    say .error ("Directory " ++ c.root.shown ++ " does not exist")
    return .ok none

end Diagnosis

end WorkspaceAudit

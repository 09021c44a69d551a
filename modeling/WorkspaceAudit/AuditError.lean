/-
WorkspaceAudit/AuditError.lean

What can go wrong around a scan.

Nothing about a single scanned file stands here: such a failure is one of the
findings.  An error has a message of its own, which ends with its reason.
-/
import WorkspaceAudit.Glob
import WorkspaceAudit.Path
import WorkspaceAudit.Text.Quoted
import WorkspaceAudit.Tree.FileError

namespace WorkspaceAudit

/-- An error of the configuration or of writing a report. -/
inductive AuditError
  | configUnreadable (path : Path) (e : FileError)
  | configMalformed (path : Path) (reason : String)
  | patternRefused (pattern : String) (r : Glob.Refusal)
  | reportUnwritable (path : Path) (e : FileError)
  deriving DecidableEq, Repr

namespace AuditError

/-- The reason alone. -/
def reason : AuditError → String
  | configUnreadable _ e => e.message
  | configMalformed _ reason => reason
  | patternRefused _ r => r.message
  | reportUnwritable _ e => e.message

/-- What could not be done, without the reason. -/
def subject : AuditError → String
  | configUnreadable p _ => "Failed to read configuration file " ++ p.shown
  | configMalformed p _ => "Invalid JSON in configuration file " ++ p.shown
  | patternRefused g _ => "Invalid file name pattern " ++ Text.Quoted.quote g
  | reportUnwritable p _ => "Failed to write report " ++ p.shown

/-- The whole message. -/
def message (e : AuditError) : String :=
  e.subject ++ ": " ++ e.reason

/-- The message followed by the reason once more, as a chain of causes. -/
def chain (e : AuditError) : String :=
  e.message ++ ": " ++ e.reason

end AuditError

end WorkspaceAudit

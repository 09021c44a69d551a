/-
WorkspaceAudit/Report.lean

The two reports on a scan: a text for readers and JSON for programs.
-/
import WorkspaceAudit.Findings
import WorkspaceAudit.Json.Value

namespace WorkspaceAudit

namespace Report

/-- The first line of the text. -/
def title : String := "Solana Program Diagnostic Summary"

/-- Stands in the text, and in the log, where nothing was found. -/
def nothingFound : String := "No issues found. 🎉"

/-- The title, a rule and an empty line. -/
def heading : List Char :=
  title.toList ++ '\n' :: (List.replicate 40 '=' ++ ['\n', '\n'])

/-- The line of an issue. -/
def issueLine (issue : Issue) : List Char :=
  ' ' :: ' ' :: '-' :: ' ' :: (issue.toList ++ ['\n'])

/-- The lines of a file: an empty one, its path and its issues. -/
def fileLines (file : FileIssues) : List Char :=
  '\n' :: ("File: ".toList ++ file.path.toList ++
    '\n' :: file.issues.flatMap issueLine)

/-- The text without its heading. -/
def body (f : Findings) : List Char :=
  if f.isEmpty then nothingFound.toList ++ ['\n'] else f.files.flatMap fileLines

/-- The report as text. -/
def text (f : Findings) : String :=
  String.ofList (heading ++ body f)

/-- A file with its issues as JSON. -/
def fileJson (file : FileIssues) : Json.Value :=
  .object [("issues", .array (file.issues.map Json.Value.string)), ("path", .string file.path)]

/-- The findings as JSON. -/
def json (f : Findings) : Json.Value :=
  .object [("files", .array (f.files.map fileJson)), ("total_issues", .number f.total)]

/-- The report as JSON, on lines. -/
def jsonText (f : Findings) : String :=
  String.ofList ((json f).pretty 0)

end Report

end WorkspaceAudit

/-
WorkspaceAudit/Findings.lean

What a scan found: the files with issues, in the order of the scan.

A file without issues is not kept; the type carries that.  A path may stand
twice, and asking for its issues finds the first.
-/
import WorkspaceAudit.Source

namespace WorkspaceAudit

/-- The issues of one file, of which there are some. -/
structure FileIssues where
  path : String
  issues : List Issue
  nonempty : issues ≠ []
  deriving DecidableEq

/-- The files with issues, in order. -/
structure Findings where
  files : List FileIssues
  deriving DecidableEq

namespace Findings

/-- Nothing was found. -/
def empty : Findings := ⟨[]⟩

/-- Adds the issues of a file, if there are any; also answers whether the
file is kept. -/
def record (f : Findings) (path : String) (issues : List Issue) : Findings × Bool :=
  if h : issues = [] then (f, false) else (⟨f.files ++ [⟨path, issues, h⟩]⟩, true)

/-- Adds the issues of files, one after the other. -/
def recordAll (f : Findings) (checked : List (String × List Issue)) : Findings :=
  checked.foldl (fun f c => (f.record c.1 c.2).1) f

/-- The issues of the first file of that path. -/
def get? (f : Findings) (path : String) : Option (List Issue) :=
  (f.files.find? fun file => file.path == path).map FileIssues.issues

/-- The number of files. -/
def size (f : Findings) : Nat :=
  f.files.length

/-- Whether nothing was found. -/
def isEmpty (f : Findings) : Bool :=
  f.files.isEmpty

/-- The number of issues of all files. -/
def total (f : Findings) : Nat :=
  f.files.foldr (fun file n => file.issues.length + n) 0

@[simp] theorem record_nil (f : Findings) (path : String) :
    f.record path [] = (f, false) := by
  simp [record]

theorem record_of_ne_nil {f : Findings} {path : String} {issues : List Issue}
    (h : issues ≠ []) :
    f.record path issues = (⟨f.files ++ [⟨path, issues, h⟩]⟩, true) := by
  simp [record, h]

end Findings

end WorkspaceAudit

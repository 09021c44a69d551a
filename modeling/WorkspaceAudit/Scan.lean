/-
WorkspaceAudit/Scan.lean

A scan of a workspace.

A scan has two passes: over the sources below the source directory and over
the manifests below the root.  Each finds its files, checks them one by one
and keeps what it found in the order of the walk.  A file that cannot be
read, and a manifest that is no document, is itself an issue; the scan goes
on.  Both patterns must be good before anything is looked at.
-/
import WorkspaceAudit.AuditError
import WorkspaceAudit.Config
import WorkspaceAudit.Findings
import WorkspaceAudit.Manifest
import WorkspaceAudit.Session
import WorkspaceAudit.Tree.Walk

namespace WorkspaceAudit.Scan

open Run

/-! ### Finding files -/

/-- Said of a directory that is not entered. -/
def skippedMessage (root p : Path) : String :=
  "Skipping unreadable entry under " ++ root.shown ++ ": IO error for operation on " ++
    p.shown ++ ": " ++ FileError.nameTooLong.message

/-- The files below a directory whose names match.  A directory that is not
there has none, and a warning says so; so does one for each directory below
that is not entered. -/
def find (root : Path) (g : Glob) : Run (List Path) := do
  if ← ask (·.isDirectory root) then
    let unopened ← ask (·.unopened root)
    let files ← ask (·.files root g)
    unopened.forM fun p => say .warn (skippedMessage root p)
    say .debug ("Found " ++ toString files.length ++ " file(s) matching " ++ g.text ++
      " under " ++ root.shown)
    return files
  else
    say .warn ("Search directory not found: " ++ root.shown)
    return []

/-! ### Checking files -/

/-- The issue of a source that cannot be read. -/
def unreadable (e : FileError) : Issue :=
  "Error reading file: " ++ e.message

/-- The issue of a manifest that cannot be loaded. -/
def unloadable (e : Manifest.LoadError) : Issue :=
  "Error reading Cargo.toml: " ++ e.message

/-- The issues of the source at a path. -/
def checkSource (p : Path) : Run (List Issue) := do
  say .debug ("Analyzing source file: " ++ p.shown)
  match ← ask (·.readText p) with
  | .ok text => return Source.issues text
  | .error e =>
    say .warn ("Could not read " ++ p.shown ++ ": " ++ e.message)
    return [unreadable e]

/-- The manifest at a path. -/
def loadManifest (t : FileTree) (p : Path) : Except Manifest.LoadError Toml.Value :=
  match t.readText p with
  | .ok text => Manifest.ofText text
  | .error e => .error (.unreadable e)

/-- The issues of the manifest at a path. -/
def checkManifest (expectations : Expectations) (p : Path) : Run (List Issue) := do
  say .debug ("Analyzing manifest: " ++ p.shown)
  match ← ask (loadManifest · p) with
  | .ok document => return Manifest.issues expectations p.shown document
  | .error e =>
    say .warn ("Could not load " ++ p.shown ++ ": " ++ e.message)
    return [unloadable e]

/-- Checks files one by one; each is kept under the path that is shown. -/
def checkAll (check : Path → Run (List Issue)) (files : List Path) :
    Run (List (String × List Issue)) :=
  files.mapM fun p => return (p.shown, ← check p)

/-! ### The two passes -/

/-- Checks the sources below a directory. -/
def sources (root : Path) (g : Glob) : Run (List (String × List Issue)) := do
  let files ← find root g
  say .info ("Checking " ++ toString files.length ++ " source file(s) under " ++ root.shown)
  checkAll checkSource files

/-- Checks the manifests below a directory. -/
def manifests (expectations : Expectations) (root : Path) (g : Glob) :
    Run (List (String × List Issue)) := do
  let files ← find root g
  say .info ("Checking " ++ toString files.length ++ " manifest(s) under " ++ root.shown)
  checkAll (checkManifest expectations) files

/-- The two patterns of a configuration, or the first that is refused. -/
def patterns (c : Config) : Except AuditError (Glob × Glob) := do
  let accepted (pattern : String) : Except AuditError Glob :=
    (Glob.ofString pattern).mapError (.patternRefused pattern)
  return (← accepted c.sourcePattern, ← accepted c.manifestName)

/-- Both passes with accepted patterns. -/
def passes (c : Config) (sourcePattern manifestPattern : Glob) : Run Findings := do
  let checkedSources ← sources c.sourceRoot sourcePattern
  let checkedManifests ← manifests c.expectations c.root manifestPattern
  let f := (Findings.empty.recordAll checkedSources).recordAll checkedManifests
  say .info ("Scan finished: " ++ toString f.size ++ " file(s) with " ++ toString f.total ++
    " issue(s)")
  return f

/-- A scan of the configured workspace. -/
def workspace (c : Config) : Run (Except AuditError Findings) := do
  match patterns c with
  | .error e => return .error e
  | .ok (g, h) => return .ok (← passes c g h)

end WorkspaceAudit.Scan

/-
WorkspaceAudit/Main.lean

The program.

The run itself knows no system: it works on a `FileTree`.  Here the part of
the file system that a run can reach is taken into such a tree, the run is
made, and what it wrote is written out: the log and the reports.
-/
import Std.Time.Format
import WorkspaceAudit.CommandLine.Run
import WorkspaceAudit.Tree.Edit

namespace WorkspaceAudit.Main

/-! ### Taking files in -/

/-- The tree with a node at a path, if none is there. -/
def placed (t : FileTree) (path : String) (x : Node) : FileTree :=
  (t.make (Bytes.ofText path) x).toOption.getD t

/-- The names of a path. -/
def names (path : String) : List String :=
  (path.splitOn "/").filter fun n => n != "" && n != "."

/-- Takes in what stands at the names below the directory `above`, and if
`whole` also all that is below.  Links are taken in together with what they
lead to, but what is below a directory only if a path goes through. -/
partial def takeIn (whole : Bool) (t : FileTree) (above : String) : List String → IO FileTree
  | [] => do
    if !whole then return t
    let here : IO.FS.DirEntry := ⟨above, "."⟩
    let .ok entries ← here.path.readDir.toBaseIO | return t
    let mut t := t
    for e in entries do
      let isLink := match ← e.path.symlinkMetadata.toBaseIO with
        | .ok m => m.type == .symlink
        | .error _ => false
      t ← takeIn (!isLink) t above [e.fileName]
    return t
  | n :: ns => do
    let e : IO.FS.DirEntry := ⟨above, n⟩
    let path := above ++ "/" ++ n
    let .ok m ← e.path.symlinkMetadata.toBaseIO | return t
    match m.type with
    | .dir => takeIn whole (placed t path (.dir [])) path ns
    | .file =>
      let .ok content ← (IO.FS.readBinFile e.path).toBaseIO | return t
      return placed t path (.file content.toList)
    | .other => return placed t path (.device .sink)
    | .symlink =>
      match ← (IO.FS.realPath e.path).toBaseIO with
      | .error _ => return placed t path (.link [])
      | .ok target =>
        takeIn whole (placed t path (.link (Bytes.ofText target.toString))) ""
          (names target.toString ++ ns)

/-- Takes in what a path leads to, seen from a directory. -/
def takeInPath (whole : Bool) (current : String) (t : FileTree) (p : Path) : IO FileTree :=
  takeIn whole t "" <|
    if p.isAbsolute then names p.shown else names current ++ names p.shown

/-- The tree of what a run with these arguments can reach. -/
def reachable (current : String) (a : CommandLine.Arguments) : IO FileTree := do
  let here := (names current).filterMap fun n => Name.ofBytes? (Bytes.ofText n)
  let mut t ← takeIn false ⟨[], here⟩ "" (names current)
  for p in a.config.toList ++ [a.logFile] do
    t ← takeInPath false current t p
  let (loaded, _) := (Config.load a.config).run (Session.on t)
  let .ok c := loaded | return t
  let c := a.override c
  for p in [c.root, c.sourceRoot] do
    t ← takeInPath true current t p
  for p in c.reportFile :: c.jsonReport.toList do
    t ← takeInPath false current t p
  return t

/-! ### Writing files out -/

/-- All files of a tree with their contents, links not followed. -/
def contents (t : FileTree) : List (String × Bytes) :=
  ((Node.dir t.entries).walk [Path.slash]).filterMap fun (names, x) =>
    match x with
    | .file content => some ((Path.along [Path.slash] names).shown, content)
    | _ => none

/-- Writes the files that a run has changed. -/
def writeOut (before after : FileTree) : IO Unit := do
  for (path, content) in contents after do
    if (before.readBytes (Bytes.ofText path)).toOption != some content then
      IO.FS.writeBinFile path ⟨content.toArray⟩

/-! ### The program -/

/-- Whether output is in colour: as the environment says, else if a terminal
shows it. -/
def colours : IO Bool := do
  let isSet (name : String) : IO Bool := do
    return (← IO.getEnv name).any (· != "0")
  if ← isSet "CLICOLOR_FORCE" then return true
  if (← IO.getEnv "NO_COLOR").isSome then return false
  if (← IO.getEnv "CLICOLOR") == some "0" then return false
  (← IO.getStdout).isTty

/-- Runs the program and tells its exit code. -/
def run (arguments : List String) : IO UInt32 := do
  let start ← IO.monoNanosNow
  let arguments := arguments.map Bytes.ofText
  let current := (← IO.currentDir).toString
  let tree ← match CommandLine.request arguments with
    | .ok (.run a) => reachable current a
    | _ => pure ⟨[], []⟩
  let stamp := (← Std.Time.PlainDateTime.now).format "uuuu-MM-dd HH:mm:ss,SSS"
  let ending := CommandLine.run
    { tree, stamp, consoleIsOpen := true, colours := ← colours } arguments
  writeOut tree ending.tree
  let elapsed := (← IO.monoNanosNow) - start
  (← IO.getStderr).write ⟨ending.console.toArray⟩
  (← IO.getStdout).putStr (ending.output ⟨elapsed / 1000000000, elapsed % 1000000000⟩)
  return UInt32.ofNat ending.exitCode

end WorkspaceAudit.Main

/-- The command line. -/
def main (arguments : List String) : IO UInt32 :=
  WorkspaceAudit.Main.run arguments

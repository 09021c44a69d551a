/-
WorkspaceAudit/Session.lean

What a run works on: the files, and the log of what it does.

Each line of the log is kept, and what the threshold lets through is also
written: to the console and, if there is one, to the end of the log file,
which is one of the files.
-/
import WorkspaceAudit.Log.Line
import WorkspaceAudit.Log.Sink

namespace WorkspaceAudit

/-- How the log is written. -/
structure Recorder where
  threshold : Log.Threshold
  /-- What stands before each line: the time of the run. -/
  stamp : String
  /-- Where the log file is. -/
  file? : Option Location
  consoleIsOpen : Bool

/-- A recorder that writes nothing. -/
def Recorder.silent : Recorder :=
  ⟨.off, "", none, false⟩

/-- The files and the log of a run. -/
structure Session where
  tree : FileTree
  /-- All lines so far, in order. -/
  lines : List Log.Line
  /-- What the console has shown. -/
  console : Bytes
  recorder : Recorder

namespace Session

/-- A session on these files that writes no log. -/
def on (t : FileTree) : Session :=
  ⟨t, [], [], .silent⟩

/-- Writes bytes where the log is written. -/
def emit (bytes : Bytes) (s : Session) : Session :=
  let console := Log.consoleSink s.recorder.consoleIsOpen
  match s.recorder.file? with
  | some loc =>
    let both := Log.Sink.both (Log.fileSink loc) console
    let (_, tree, shown) := both.write bytes (s.tree, s.console)
    { s with tree, console := shown }
  | none => { s with console := (console.write bytes s.console).2 }

/-- Shows a text on the console alone. -/
def display (text : String) (s : Session) : Session :=
  { s with console :=
      ((Log.consoleSink s.recorder.consoleIsOpen).write (Bytes.ofText text) s.console).2 }

/-- Adds a line to the log. -/
def record (l : Log.Line) (s : Session) : Session :=
  let s := { s with lines := s.lines ++ [l] }
  if s.recorder.threshold.admits l.level then
    s.emit (Bytes.ofText (l.stamped s.recorder.stamp))
  else s

end Session

/-- A computation on a session. -/
abbrev Run := StateM Session

namespace Run

/-- Adds a line of a level to the log. -/
def say (level : Log.Level) (text : String) : Run Unit :=
  modify fun s => s.record ⟨level, text⟩

/-- What the files answer now. -/
def ask {α : Type} (question : FileTree → α) : Run α := do
  return question (← get).tree

/-- Writes a file. -/
def write (p : Path) (content : Bytes) : Run (Except FileError Unit) := do
  match (← get).tree.writeFile p content with
  | .ok tree =>
    modify fun s => { s with tree }
    return .ok ()
  | .error e => return .error e

end Run

end WorkspaceAudit

/-
WorkspaceAudit/Tree/Edit.lean

Changing a tree: making and removing directories, files and links.

An edit that fails half way keeps what it has done before, so it answers
with a tree in any case.
-/
import WorkspaceAudit.Tree.Resolve

namespace WorkspaceAudit

/-- A change of a tree that may fail. -/
abbrev Edit := ExceptT FileError (StateM FileTree)

namespace Edit

/-- The edit that changes the tree as a whole or not at all. -/
def whole (change : FileTree → Except FileError FileTree) : Edit Unit := do
  match change (← get) with
  | .ok t => set t
  | .error e => throw e

end Edit

namespace FileTree

/-! ### Making -/

/-- Puts a node where a path leads and nothing is.  Only a directory may be
called for with a slash at the end. -/
def make (t : FileTree) (p : Path) (x : Node) : Except FileError FileTree := do
  match ← t.place p with
  | (dir, .down n) =>
    if (t.at? (dir ++ [n])).isSome then .error .present
    else
      match x with
      | .dir _ => return t.put (dir ++ [n]) x
      | _ => if p.endsInSlash then .error .missing else return t.put (dir ++ [n]) x
  | (_, .tooLong) => .error .nameTooLong
  | _ => .error .present

/-- Puts a link where a path leads and nothing is. -/
def makeLink (t : FileTree) (p target : Path) : Except FileError FileTree :=
  if p.contains 0 || target.contains 0 then .error .zeroByte
  else if target.isEmpty then .error .missing
  else if pathLimit < target.length then .error .nameTooLong
  else t.make p (.link target)

/-- The paths that a path goes through, the longest first, itself left out. -/
def ancestors (p : Path) : List Path :=
  let steps := p.steps
  let text (qs : List Bytes) : Path :=
    (if p.isAbsolute then [Path.slash] else []) ++ [Path.slash].intercalate qs
  ((List.range steps.length).reverse.map fun k => text (steps.take k)).filter (!·.isEmpty)

/-- Makes one directory; it does not matter if it is there. -/
def makeOne (p : Path) (otherwise : FileError → Edit Unit) : Edit Unit := do
  match (← get).make p (.dir []) with
  | .ok t => set t
  | .error e => if e != .missing && (← get).isDirectory p then return () else otherwise e

/-- Makes a directory, after the directories that it is in: the paths are
the directory and those above it. -/
def makeDirs : List Path → Edit Unit
  | [] => return ()
  | p :: above =>
    makeOne p fun e =>
      if e = .missing then do
        makeDirs above
        makeOne p throw
      else throw e

/-- Makes a directory and those above it. -/
def makeDir (p : Path) : Edit Unit :=
  makeDirs (if p.isEmpty then [] else p :: ancestors p)

/-- Writes a file after making the directories that it is in. -/
def writeFileIn (p : Path) (content : Bytes) : Edit Unit := do
  makeDirs (ancestors p)
  Edit.whole (·.writeFile p content)

/-! ### Removing and moving -/

/-- Takes away a file, a link or a directory with all that is in it.  A
directory that is not called by its name, or by way of a link, is only
emptied. -/
def removeAll (p : Path) : Edit Unit := do
  let t ← get
  match t.resolve entry p with
  | .error e => throw e
  | .ok (.vacant _ _) => throw .missing
  | .ok (.found loc) =>
    let emptied := { t with entries := t.entries.clear loc }
    match t.place p with
    | .ok (dir, .down n) =>
      if dir ++ [n] = loc then set { t with entries := t.entries.remove loc }
      else do
        set emptied
        throw .notDirectory
    | _ => do
      set emptied
      throw .invalid

/-- Puts the node at one location to another.  It may take the place of a
file, or of an empty directory if it is a directory; neither location may be
below the node at the other. -/
def move (t : FileTree) (x : Node) (old new : Location) : Except FileError FileTree :=
  let moved := FileTree.put { t with entries := t.entries.remove old } new x
  if old = new then .ok t
  else if old.isPrefixOf new then .error .invalid
  else if new.isPrefixOf old then .error .notEmpty
  else
    match x, t.at? new with
    | _, none => .ok moved
    | .dir _, some (.dir es) => if es.isEmpty then .ok moved else .error .notEmpty
    | .dir _, some _ => .error .notDirectory
    | _, some (.dir _) => .error .isDirectory
    | _, some _ => .ok moved

/-- Puts a node under another name.  Only a directory may be called for, or
be given a name, with a slash at the end. -/
def rename (t : FileTree) (p q : Path) : Except FileError FileTree := do
  if q.contains 0 then .error .zeroByte
  match ← t.place p, ← t.place q with
  | (dir, .down n), (dir', .down n') =>
    match t.at? (dir ++ [n]) with
    | none => .error .missing
    | some (.dir es) => t.move (.dir es) (dir ++ [n]) (dir' ++ [n'])
    | some x =>
      if p.endsInSlash || q.endsInSlash then .error .notDirectory
      else t.move x (dir ++ [n]) (dir' ++ [n'])
  | (dir, .down n), (_, .tooLong) =>
    .error (if (t.at? (dir ++ [n])).isSome then .nameTooLong else .missing)
  | (_, .tooLong), (_, .down _) | (_, .tooLong), (_, .tooLong) => .error .nameTooLong
  | _, _ => .error .busy

end FileTree

end WorkspaceAudit

/-
WorkspaceAudit/Tree/Walk.lean

The files below a directory.

`Node.walk` comes to everything below a node, with the entries of each
directory in the order of their names, whatever order they are listed in,
and a directory before what is in it.  Links are not followed, and a
directory whose path is too long to be opened is not entered.
-/
import WorkspaceAudit.Glob
import WorkspaceAudit.Tree.Resolve

namespace WorkspaceAudit

/-- Adds what stands under a name to what stands under other names, in the
order of the names; it takes the place of what the name has there. -/
def insertByName {α : Type} (n : Name) (a : α) : List (Name × α) → List (Name × α)
  | [] => [(n, a)]
  | (m, b) :: es =>
    if n.bytes < m.bytes then (n, a) :: (m, b) :: es
    else if n = m then (n, a) :: es
    else (m, b) :: insertByName n a es

/-- Whether a node is a directory. -/
def Node.isDir : Node → Bool
  | .dir _ => true
  | _ => false

mutual

/-- What a walk from the node at a path comes to, by the names that lead
there: the node itself, and all that is below if it can be opened. -/
def Node.walk (p : Path) : Node → List (List Name × Node)
  | .dir es =>
    ([], .dir es) ::
      if p.length ≤ FileTree.pathLimit then
        (Entries.walk p es).flatMap fun (n, below) => below.map fun (names, x) => (n :: names, x)
      else []
  | x => [([], x)]

/-- For each name of the directory at a path, in order, what a walk from
there comes to. -/
def Entries.walk (p : Path) : List (Name × Node) → List (Name × List (List Name × Node))
  | [] => []
  | (n, x) :: es => insertByName n (x.walk (p.join n.bytes)) (Entries.walk p es)

end

/-- Whether the last of the names matches. -/
def Glob.matchesLast (g : Glob) (names : List Name) : Bool :=
  match names.getLast? with
  | some n => g.matchesName n.bytes.shown
  | none => false

/-- The path that leads from a path along names. -/
def Path.along (p : Path) (names : List Name) : Path :=
  names.foldl (fun q n => q.join n.bytes) p

namespace FileTree

/-- What a walk from the directory at a path comes to; nothing if no
directory is there. -/
def walkAt (t : FileTree) (root : Path) : List (List Name × Node) :=
  match t.node? existing root with
  | .ok (.dir es) => (Node.dir es).walk root
  | _ => []

/-- The files below the root whose names match, in the order of the walk.  A
root that is a link to a directory is entered, and is itself a file before
all others if its name matches. -/
def files (t : FileTree) (root : Path) (g : Glob) : List Path :=
  (if t.isDirectory root && t.isLink root && g.matchesName root.lastName.shown then [root]
    else []) ++
    ((t.walkAt root).filter fun (names, x) => !x.isDir && g.matchesLast names).map
      fun (names, _) => root.along names

/-- The directories below the root that are not entered. -/
def unopened (t : FileTree) (root : Path) : List Path :=
  ((t.walkAt root).filter fun (names, x) =>
    x.isDir && pathLimit < (root.along names).length).map fun (names, _) => root.along names

end FileTree

end WorkspaceAudit

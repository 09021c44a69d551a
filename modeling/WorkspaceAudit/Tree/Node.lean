/-
WorkspaceAudit/Tree/Node.lean

A tree of files.

A directory lists its entries in whatever order the system gives them; what
stands under a name is the first entry of that name.  `at?` and `put` reach
a node by the names that lead to it, without following links.
-/
import WorkspaceAudit.Path

namespace WorkspaceAudit

/-! ### Names -/

/-- The most bytes that a name may have. -/
def nameLimit : Nat := 255

/-- Whether bytes can be the name of an entry of a directory. -/
def isName (b : Bytes) : Bool :=
  !b.isEmpty && b != Path.dot && b != Path.dotDot && !b.contains Path.slash &&
    !b.contains 0 && b.length ≤ nameLimit

/-- The name of an entry of a directory. -/
structure Name where
  bytes : Bytes
  valid : isName bytes = true
  deriving DecidableEq

/-- The name of these bytes, if they can be one. -/
def Name.ofBytes? (b : Bytes) : Option Name :=
  if h : isName b = true then some ⟨b, h⟩ else none

/-! ### Nodes -/

/-- A device: what is written to it is dropped, or finds no room.  There is
nothing to read. -/
inductive Device
  | sink
  | full
  deriving DecidableEq, Repr

/-- What stands under a name. -/
inductive Node
  | file (content : Bytes)
  | dir (entries : List (Name × Node))
  | link (target : Path)
  | device (d : Device)

/-- The entries of a directory. -/
abbrev Entries := List (Name × Node)

/-- The names that lead from the root to a node, links not followed. -/
abbrev Location := List Name

namespace Entries

/-- Puts a node under a name, in the place of the one that is there. -/
def set (n : Name) (x : Node) : Entries → Entries
  | [] => [(n, x)]
  | (m, y) :: es => if m = n then (m, x) :: es else (m, y) :: set n x es

/-- Takes the node under a name out. -/
def unset (n : Name) : Entries → Entries
  | [] => []
  | (m, y) :: es => if m = n then es else (m, y) :: unset n es

/-- The node at a location. -/
def at? (es : Entries) : Location → Option Node
  | [] => some (.dir es)
  | n :: loc =>
    match es.lookup n with
    | some (.dir sub) => at? sub loc
    | some x => if loc.isEmpty then some x else none
    | none => none

/-- Puts a node at a location whose directory is there. -/
def put (x : Node) : Location → Entries → Entries
  | [], es => es
  | [n], es => set n x es
  | n :: loc, es =>
    match es.lookup n with
    | some (.dir sub) => set n (.dir (put x loc sub)) es
    | _ => es

/-- Takes the node at a location out. -/
def remove : Location → Entries → Entries
  | [], es => es
  | [n], es => unset n es
  | n :: loc, es =>
    match es.lookup n with
    | some (.dir sub) => set n (.dir (remove loc sub)) es
    | _ => es

/-- Empties the directory at a location. -/
def clear : Location → Entries → Entries
  | [], _ => []
  | loc, es => put (.dir []) loc es

end Entries

/-- The files of a system, and the directory in which paths start that do
not start at the root. -/
structure FileTree where
  entries : Entries
  current : Location

/-- The node at a location. -/
def FileTree.at? (t : FileTree) (loc : Location) : Option Node :=
  t.entries.at? loc

/-- Puts a node at a location whose directory is there. -/
def FileTree.put (t : FileTree) (loc : Location) (x : Node) : FileTree :=
  { t with entries := t.entries.put x loc }

end WorkspaceAudit

/-
WorkspaceAudit/Path.lean

Paths as they are written.

A path is a byte string.  Joining keeps both sides as they stand, so that
what a report shows is what was configured; two paths count as the same if
they have the same steps.
-/
import WorkspaceAudit.Text.Utf8

namespace WorkspaceAudit

/-- A path as it is written. -/
abbrev Path := Bytes

namespace Path

/-- The byte between the names of a path. -/
def slash : UInt8 := 0x2F

/-- The name of a directory in itself. -/
def dot : Bytes := [0x2E]

/-- The name of the directory above, in a directory. -/
def dotDot : Bytes := [0x2E, 0x2E]

/-- Whether the path starts at the root. -/
def isAbsolute (p : Path) : Bool :=
  p.head? == some slash

/-- Whether the path ends in a slash. -/
def endsInSlash (p : Path) : Bool :=
  p.getLast? == some slash

/-- The path of `q` seen from `p`: an absolute path stands as it is, and a
slash is put between the two unless one is there or `p` is empty. -/
def join (p q : Path) : Path :=
  if isAbsolute q then q
  else if p.isEmpty || endsInSlash p then p ++ q
  else p ++ slash :: q

/-- What stands between the slashes. -/
def pieces : Path → List Bytes
  | [] => [[]]
  | b :: p =>
    if b = slash then [] :: pieces p
    else
      match pieces p with
      | [] => [[b]]
      | q :: qs => (b :: q) :: qs

/-- The steps of a path, without empty pieces and without dots after the
first. -/
def steps (p : Path) : List Bytes :=
  match pieces p with
  | [] => []
  | q :: qs =>
    (if q.isEmpty then [] else [q]) ++ qs.filter fun r => !r.isEmpty && r != dot

/-- Whether two paths have the same steps. -/
def same (p q : Path) : Bool :=
  isAbsolute p == isAbsolute q && steps p == steps q

/-- The last name of a path; the path itself if it ends in no name. -/
def lastName (p : Path) : Bytes :=
  match (steps p).getLast? with
  | some q => if q = dot || q = dotDot then p else q
  | none => p

end Path

end WorkspaceAudit

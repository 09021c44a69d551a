/-
WorkspaceAudit/Tree/Resolve.lean

From a path to a location.

A path is walked step by step from the root or from the current directory.
A walk keeps the `Trail` of directories that it has come through, so that a
step up leads back.  A link on the way is followed; one at the end is
followed or not, as the `Aim` says.  The walk is by recursion on the steps,
and on the number of links that may still be followed.
-/
import WorkspaceAudit.Tree.FileError
import WorkspaceAudit.Tree.Node

namespace WorkspaceAudit

/-! ### Steps -/

/-- One step of a walk. -/
inductive Step
  | stay
  | up
  | down (n : Name)
  /-- The slash that ends a path: what stands before it is a directory. -/
  | slash
  /-- A name that no entry can have. -/
  | tooLong
  deriving DecidableEq

/-- The step that a piece of a path takes; an empty one takes none. -/
def Step.ofPiece? (b : Bytes) : Option Step :=
  if b.isEmpty then none
  else if b = Path.dot then some .stay
  else if b = Path.dotDot then some .up
  else
    match Name.ofBytes? b with
    | some n => some (.down n)
    | none => some .tooLong

/-- The steps of a path. -/
def Path.walk (p : Path) : List Step :=
  (Path.pieces p).filterMap Step.ofPiece? ++
    if p.endsInSlash then [.slash] else []

namespace FileTree

/-! ### The walk -/

/-- What a path is walked for. -/
structure Aim where
  /-- Whether a link at the end is followed. -/
  follow : Bool
  /-- Whether there may be nothing at the end yet. -/
  vacant : Bool
  /-- Whether a file is wanted, so that a slash at the end is a mistake. -/
  file : Bool

/-- What is there already. -/
def existing : Aim := ⟨true, false, false⟩

/-- What is there already, even if it is a link. -/
def entry : Aim := ⟨false, false, false⟩

/-- A file to write, which may have to be made. -/
def writable : Aim := ⟨true, true, true⟩

/-- Where a path leads. -/
inductive Target
  | found (loc : Location)
  | vacant (dir : Location) (n : Name)
  deriving DecidableEq

/-- The directories from one up to the root, which is left out: each with
its name and its entries. -/
abbrev Trail := List (Name × Entries)

/-- The location of the directory that a trail starts from. -/
def Trail.location (trail : Trail) : Location :=
  (trail.map Prod.fst).reverse

/-- The entries of the directory that a trail starts from. -/
def Trail.entries (t : FileTree) (trail : Trail) : Entries :=
  match trail with
  | [] => t.entries
  | (_, es) :: _ => es

/-- The trail of the directory at a location. -/
def trail (t : FileTree) (loc : Location) : Trail :=
  loc.foldl (fun trail n =>
    match (trail.entries t).lookup n with
    | some (.dir es) => (n, es) :: trail
    | _ => trail) []

/-- Where steps start. -/
def start (t : FileTree) (p : Path) : Trail :=
  if p.isAbsolute then [] else t.trail t.current

/-- Walks on from a directory; `onLink` goes on at a link, from its
directory and its target, with the steps after it. -/
def walkFrom (t : FileTree) (aim : Aim)
    (onLink : Trail → Path → List Step → Except FileError Target) :
    Trail → List Step → Except FileError Target
  | here, [] => .ok (.found here.location)
  | here, .stay :: steps => walkFrom t aim onLink here steps
  | here, .slash :: steps => walkFrom t aim onLink here steps
  | here, .up :: steps => walkFrom t aim onLink here.tail steps
  | _, .tooLong :: _ => .error .nameTooLong
  | here, .down n :: steps =>
    if aim.file && steps == [.slash] then .error .isDirectory
    else
      match (here.entries t).lookup n with
      | none =>
        if aim.vacant && (steps.isEmpty || steps == [.slash]) then
          .ok (.vacant here.location n)
        else .error .missing
      | some (.link target) =>
        if steps.isEmpty && !aim.follow then .ok (.found (here.location ++ [n]))
        else onLink here target steps
      | some (.dir es) => walkFrom t aim onLink ((n, es) :: here) steps
      | some _ =>
        if steps.isEmpty then .ok (.found (here.location ++ [n])) else .error .notDirectory

/-- Walks on from a directory, through at most so many links. -/
def walkLinks (t : FileTree) (aim : Aim) :
    Nat → Trail → List Step → Except FileError Target
  | 0 => walkFrom t aim fun _ _ _ => .error .tooManyLinks
  | links + 1 => walkFrom t aim fun here target steps =>
    if target.isEmpty then .error .missing
    else walkLinks t aim links (if target.isAbsolute then [] else here) (target.walk ++ steps)

/-- The most links that one walk follows. -/
def linkLimit : Nat := 40

/-- The most bytes that a path may have. -/
def pathLimit : Nat := 4095

/-- Where a path leads. -/
def resolve (t : FileTree) (aim : Aim) (p : Path) : Except FileError Target :=
  if p.contains 0 then .error .zeroByte
  else if p.isEmpty then .error .missing
  else if pathLimit < p.length then .error .nameTooLong
  else t.walkLinks aim linkLimit (t.start p) p.walk

/-- The directory in which a path ends, links followed, and the last step
from there.  Slashes at the end make no difference. -/
def place (t : FileTree) (p : Path) : Except FileError (Location × Step) :=
  if p.contains 0 then .error .zeroByte
  else if pathLimit < p.length then .error .nameTooLong
  else
    let steps := p.walk.filter (· != .slash)
    match steps.getLast? with
    | none => if p.isEmpty then .error .missing else .ok ((t.start p).location, .stay)
    | some last => do
      match ← t.walkLinks existing linkLimit (t.start p) (steps.dropLast ++ [.slash]) with
      | .found dir => return (dir, last)
      | .vacant _ _ => .error .missing

/-! ### Looking -/

/-- The node that a path leads to. -/
def node? (t : FileTree) (aim : Aim) (p : Path) : Except FileError Node := do
  match ← t.resolve aim p with
  | .found loc =>
    match t.at? loc with
    | some x => return x
    | none => .error .missing
  | .vacant _ _ => .error .missing

/-- Whether a path leads to anything, links followed. -/
def hasPath (t : FileTree) (p : Path) : Bool :=
  (t.node? existing p).isOk

/-- Whether a path leads to a directory, links followed. -/
def isDirectory (t : FileTree) (p : Path) : Bool :=
  match t.node? existing p with
  | .ok (.dir _) => true
  | _ => false

/-- Whether a path leads to a link. -/
def isLink (t : FileTree) (p : Path) : Bool :=
  match t.node? entry p with
  | .ok (.link _) => true
  | _ => false

/-! ### Reading and writing -/

/-- The bytes of the file that a path leads to. -/
def readBytes (t : FileTree) (p : Path) : Except FileError Bytes := do
  match ← t.node? existing p with
  | .file content => return content
  | .dir _ => .error .isDirectory
  | _ => return []

/-- The text of the file that a path leads to. -/
def readText (t : FileTree) (p : Path) : Except FileError String := do
  match (← t.readBytes p).text? with
  | some s => return s
  | none => .error .notText

/-- Changes the content of the file at a location. -/
def updateFile (t : FileTree) (loc : Location) (change : Bytes → Bytes) :
    Except FileError FileTree :=
  match t.at? loc with
  | some (.file content) => .ok (t.put loc (.file (change content)))
  | some (.dir _) => .error .isDirectory
  | some (.device .full) => .error .noSpace
  | _ => .ok t

/-- Opens the file that a path leads to, or makes it, and tells where it
is. -/
def openFile (t : FileTree) (p : Path) : Except FileError (FileTree × Location) := do
  match ← t.resolve writable p with
  | .found loc =>
    match t.at? loc with
    | some (.dir _) => .error .isDirectory
    | _ => return (t, loc)
  | .vacant dir n => return (t.put (dir ++ [n]) (.file []), dir ++ [n])

/-- Writes a file, in the place of what it held.  Where that fails, nothing
has changed. -/
def writeFile (t : FileTree) (p : Path) (content : Bytes) : Except FileError FileTree := do
  let (t, loc) ← t.openFile p
  t.updateFile loc fun _ => content

end FileTree

end WorkspaceAudit

/-
WorkspaceAudit/Toml/Draft.lean

A document while it is being read.

Each table remembers how it came to be: by a header of its own, on the way
to a longer header, or by a dotted key.  That decides what may still be
added to it.  `Fields.descend` leads along a path to a table and applies a
change there; the three ways in which a document grows, and the growth of an
inline table, are changes at the end of a path.
-/
import WorkspaceAudit.Toml.Moment

namespace WorkspaceAudit.Toml

/-- How a table came to be. -/
inductive Origin
  /-- By a header of its own, or written out between braces. -/
  | header
  /-- On the way to a longer header. -/
  | passage
  /-- By a dotted key. -/
  | dotted
  deriving DecidableEq, Repr

/-- What stands under a key of a draft. -/
inductive Item
  | leaf (v : Value)
  | table (origin : Origin) (fields : List (String × Item))
  /-- The tables of one repeated header, in order. -/
  | series (tables : List (List (String × Item)))

/-- The fields of a table of a draft, in the order in which they came. -/
abbrev Fields := List (String × Item)

namespace Fields

/-! ### Changes -/

/-- Puts an item under a key, in the place of the one that is there. -/
def put (key : String) (item : Item) : Fields → Fields
  | [] => [(key, item)]
  | (k, i) :: fs => if k = key then (k, item) :: fs else (k, i) :: put key item fs

/-- What may be entered on the way along a path. -/
structure Passage where
  /-- The origin of the tables that are made on the way.  On the way of a
  dotted key no table is entered that was written out. -/
  makes : Origin
  /-- Whether a table between braces counts as a table here. -/
  inline : Bool

/-- Applies a change to the table at the end of a path; the change is told
how that table came to be.  Tables that are not there are made, and of a
series the last one is entered.  `walked` are the keys so far. -/
def descend (way : Passage) (change : Origin → Fields → Except Cause Fields)
    (walked : List String) : List String → Origin → Fields → Except Cause Fields
  | [], origin, fs => change origin fs
  | k :: ks, _, fs =>
    match fs.lookup k with
    | none => do
      let made ← descend way change (walked ++ [k]) ks way.makes []
      return put k (.table way.makes made) fs
    | some (.leaf v) =>
      if way.inline && v.fields?.isSome then .error (.repeatedKey k)
      else .error (.notATable (walked ++ [k]) v.kind)
    | some (.series tables) => do
      let entered ← descend way change (walked ++ [k]) ks .header (tables.getLastD [])
      return put k (.series (tables.dropLast ++ [entered])) fs
    | some (.table origin sub) =>
      if way.makes = .dotted && origin = .header then .error (.repeatedKey k)
      else do
        let entered ← descend way change (walked ++ [k]) ks origin sub
        return put k (.table origin entered) fs

/-- Adds a value under a dotted key.  The last table on the way must have
come to be by dotted keys, and `repeated` says what is wrong if the key is
there. -/
def insert (inline : Bool) (repeated : Cause) (key : KeyPath) (v : Value) (fs : Fields) :
    Except Cause Fields :=
  descend ⟨.dotted, inline⟩ (fun origin t =>
    if (origin == .dotted) == key.parents.isEmpty then .error (.repeatedKey key.last)
    else
      match t.lookup key.last with
      | none => .ok (t ++ [(key.last, .leaf v)])
      | some _ => .error repeated) [] key.parents .header fs

/-! ### From a draft to values -/

/-- The key that a table of one field has in the place of a date or time. -/
def datetimeKey : String := "$__toml_private_datetime"

/-- The date or time that a table stands for. -/
def datetime? : List (String × Value) → Option Datetime
  | (k, .string s) :: _ => if k = datetimeKey then datetimeOf? s else none
  | _ => none

/-- Adds a field to fields in the order of their keys. -/
def insertSorted (f : String × Value) : List (String × Value) → List (String × Value)
  | [] => [f]
  | g :: gs => if f.1 < g.1 then f :: g :: gs else g :: insertSorted f gs

/-- The value of a table with these fields. -/
def close (fs : List (String × Value)) : Value :=
  match datetime? fs with
  | some d => .datetime d
  | none => .table (fs.foldr insertSorted [])

end Fields

mutual

/-- The value that an item stands for. -/
def Item.value : Item → Value
  | .leaf v => v
  | .table _ fs => Fields.close (Fields.values fs)
  | .series tables => .array (Fields.seriesValues tables)

/-- The values of fields. -/
def Fields.values : List (String × Item) → List (String × Value)
  | [] => []
  | (k, i) :: fs => (k, i.value) :: Fields.values fs

/-- The values of the tables of a series. -/
def Fields.seriesValues : List (List (String × Item)) → List Value
  | [] => []
  | fs :: tables => Fields.close (Fields.values fs) :: Fields.seriesValues tables

end

/-- The value of an inline table with these entries. -/
def inlineTable? (entries : List (KeyPath × Value)) : Except Cause Value := do
  let fs ← entries.foldlM
    (fun fs (e : KeyPath × Value) => Fields.insert true (.repeatedKey e.1.last) e.1 e.2 fs) []
  return Fields.close (Fields.values fs)

/-! ### Documents -/

/-- What was read of a document: its root table, and the header under which
keys are added now. -/
structure Draft where
  root : Fields
  header : List String

namespace Draft

/-- The draft of an empty document. -/
def empty : Draft :=
  ⟨[], []⟩

/-- Adds a value under a key of the table of the present header. -/
def insert (d : Draft) (key : KeyPath) (v : Value) : Except Cause Draft := do
  let root ← Fields.descend ⟨.passage, false⟩
    (fun _ t => Fields.insert false (.repeatedIn d.header key.last) key v t)
    [] d.header .header d.root
  return { d with root }

/-- Opens the table of a header. -/
def openTable (d : Draft) (key : KeyPath) : Except Cause Draft := do
  let root ← Fields.descend ⟨.passage, false⟩
    (fun _ parent =>
      match parent.lookup key.last with
      | none => .ok (parent ++ [(key.last, .table .header [])])
      | some (.table .passage fs) => .ok (Fields.put key.last (.table .header fs) parent)
      | some _ => .error (.repeatedHeader key.parents key.last))
    [] key.parents .header d.root
  return ⟨root, key.names⟩

/-- Opens one more table of the series of a header. -/
def openElement (d : Draft) (key : KeyPath) : Except Cause Draft := do
  let root ← Fields.descend ⟨.passage, false⟩
    (fun _ parent =>
      match parent.lookup key.last with
      | none => .ok (parent ++ [(key.last, .series [[]])])
      | some (.series tables) =>
        .ok (Fields.put key.last (.series (tables ++ [[]])) parent)
      | some _ => .error (.repeatedHeader key.parents key.last))
    [] key.parents .header d.root
  return ⟨root, key.names⟩

/-- The value of the document. -/
def value (d : Draft) : Value :=
  Fields.close (Fields.values d.root)

end Draft

end WorkspaceAudit.Toml

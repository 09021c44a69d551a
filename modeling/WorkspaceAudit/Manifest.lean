/-
WorkspaceAudit/Manifest.lean

The checks on one manifest.

A manifest declares dependencies in up to four sections.  A *deviation* is a
section, an entry of the expectations that the section has, and a field of
it that is not what is expected.  `deviations` lists them section by section,
within a section in the order of the expectations, the version before the
path; each is one line of the report.
-/
import WorkspaceAudit.Expectation
import WorkspaceAudit.Source
import WorkspaceAudit.Text.Lines
import WorkspaceAudit.Text.Utf8
import WorkspaceAudit.Toml.Document
import WorkspaceAudit.Toml.Printer
import WorkspaceAudit.Tree.FileError

namespace WorkspaceAudit.Manifest

/-! ### Sections -/

/-- The keys that lead to each section, in the order of the report. -/
def sections : List (List String) :=
  [["dependencies"], ["dev-dependencies"], ["build-dependencies"],
   ["workspace", "dependencies"]]

/-- What stands at the end of a path of keys. -/
def at? (document : Toml.Value) : List String → Option Toml.Value
  | [] => some document
  | k :: ks => (document.get? k).bind fun v => at? v ks

/-- The dependencies that a section declares; a section that is missing or
no table declares none. -/
def declared (document : Toml.Value) (path : List String) : List (String × Toml.Value) :=
  match (at? document path).bind Toml.Value.fields? with
  | some fs => fs
  | none => []

/-! ### Deviations -/

/-- A field that is checked. -/
inductive Field
  | version
  | path
  deriving DecidableEq, Repr

/-- The key of a field. -/
def Field.key : Field → String
  | version => "version"
  | path => "path"

/-- What the field must be. -/
def Field.required : Field → Expectation → String
  | version, e => e.version
  | path, e => e.path

/-- A field that is not what is expected. -/
structure Deviation where
  expectation : Expectation
  field : Field
  /-- What stands there, if anything does. -/
  found : Option Toml.Value

/-- A found value in words: a string as it is, any other value as it is
written. -/
def foundText : Option Toml.Value → String
  | none => "None"
  | some (.string s) => s
  | some v => String.ofList v.aloneText

/-- The line about a deviation in the manifest of that label. -/
def Deviation.line (label : String) (d : Deviation) : Issue :=
  d.expectation.name ++ " in " ++ label ++ ": " ++ d.field.key ++ " " ++
    foundText d.found ++ ", expected " ++ d.field.required d.expectation

/-- The deviations of what is declared for an expectation: a string gives
the version alone, a table gives both fields, and nothing else counts as a
declaration. -/
def deviationsOf (e : Expectation) : Toml.Value → List Deviation
  | .string s => if s = e.version then [] else [⟨e, .version, some (.string s)⟩]
  | .table fs =>
    [Field.version, Field.path].filterMap fun f =>
      let found := fs.lookup f.key
      if found.bind Toml.Value.string? = some (f.required e) then none
      else some ⟨e, f, found⟩
  | _ => []

/-- The deviations of a section. -/
def sectionDeviations (t : Expectations) (fs : List (String × Toml.Value)) :
    List Deviation :=
  t.entries.flatMap fun e =>
    match fs.lookup e.name with
    | some v => deviationsOf e v
    | none => []

/-- All deviations of a document. -/
def deviations (t : Expectations) (document : Toml.Value) : List Deviation :=
  sections.flatMap fun path => sectionDeviations t (declared document path)

/-- The issues of the manifest of that label. -/
def issues (t : Expectations) (label : String) (document : Toml.Value) : List Issue :=
  (deviations t document).map (Deviation.line label)

/-! ### Loading -/

/-- Why a manifest cannot be loaded. -/
inductive LoadError
  | unreadable (e : FileError)
  | malformed (message : String) (line : Nat)
  deriving DecidableEq, Repr

/-- What is said about it. -/
def LoadError.message : LoadError → String
  | unreadable e => e.message
  | malformed m line => m ++ " (line " ++ toString line ++ ")"

/-- The error about a text that is no document, with the line of the place
where that shows. -/
def LoadError.ofParse (text : String) (e : Toml.ParseError) : LoadError :=
  .malformed e.message (Text.lineAt text.toList e.offset?)

/-- The document that a text writes. -/
def ofText (text : String) : Except LoadError Toml.Value :=
  match Toml.parse text with
  | .ok v => .ok v
  | .error e => .error (.ofParse text e)

/-- The document that the bytes of a file write. -/
def ofBytes (bytes : Bytes) : Except LoadError Toml.Value :=
  match bytes.text? with
  | some text => ofText text
  | none => .error (.unreadable .notText)

end WorkspaceAudit.Manifest

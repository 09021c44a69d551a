/-
WorkspaceAudit/Config/Reader.lean

Reading a configuration from JSON.

A configuration is an object with any of its settings, each once, or a list
of their values in order; what is not given has its default.  An expectation
must be given in full.
-/
import WorkspaceAudit.Config
import WorkspaceAudit.Json.Reader
import WorkspaceAudit.Text.Quoted

namespace WorkspaceAudit

open Json

/-! ### Expectations -/

/-- What has been read of an expectation. -/
structure PartialExpectation where
  name : Option String
  version : Option String
  path : Option String

namespace PartialExpectation

/-- How an expectation is written. -/
def form : RecordForm PartialExpectation where
  wanted := "struct ExpectationEntry"
  fields := ["name", "version", "path"]
  read field e := fun s => do
    let (t, r) ← stringValue "a string" s
    match field with
    | "name" => return ({ e with name := t }, r)
    | "version" => return ({ e with version := t }, r)
    | _ => return ({ e with path := t }, r)

/-- The expectation, if it was given in full. -/
def complete (length : Option Nat) (e : PartialExpectation) : Except Problem Expectation :=
  match e.name, e.version, e.path with
  | some name, some version, some path => .ok ⟨name, version, path⟩
  | name, version, _ =>
    match length with
    | some n => .error (.invalidLength n "struct ExpectationEntry with 3 elements")
    | none =>
      if name.isNone then .error (.missingField "name")
      else if version.isNone then .error (.missingField "version")
      else .error (.missingField "path")

end PartialExpectation

/-- An expectation. -/
def Expectation.reader : Json.Reader Expectation :=
  PartialExpectation.form.record ⟨none, none, none⟩ PartialExpectation.complete

/-- A table of expectations. -/
def Expectations.reader : Json.Reader Expectations :=
  fun s =>
    match dropSpace s with
    | [] => .error (.at [] .endInValue)
    | '[' :: r => do
      let (entries, r) ← items Expectation.reader r
      match Expectations.ofEntries? entries with
      | .ok t => return (t, r)
      | .error n => .error (.unsettled r (.repeatedName (Expectations.repeatedMessage n)))
    | r => mistyped "a sequence" r

/-- A fault in words: the problem, and the place if it has one. -/
def Json.Fault.message (text : List Char) (f : Json.Fault) : String :=
  let problem := f.problem.text Text.Quoted.quote
  if f.settled then
    let p := f.position text
    problem ++ " at line " ++ toString p.line ++ " column " ++ toString p.column
  else problem

/-- The table that a JSON text lists, or why there is none. -/
def Expectations.ofJson (text : String) : Except String Expectations :=
  let cs := text.toList
  (Json.whole Expectations.reader cs).mapError (·.message cs)

/-! ### Configurations -/

namespace Config

/-- A path. -/
def pathReader : Json.Reader Path :=
  fun s => do
    let (t, r) ← stringValue "path string" s
    return (Bytes.ofText t, r)

/-- How a configuration is written. -/
def form : RecordForm Config where
  wanted := "struct Config"
  fields := initial.members.map Prod.fst
  read field c := fun s =>
    match field with
    | "root" => do
      let (p, r) ← pathReader s
      return ({ c with root := p }, r)
    | "source_dir" => do
      let (p, r) ← pathReader s
      return ({ c with sourceDir := p }, r)
    | "source_pattern" => do
      let (t, r) ← stringValue "a string" s
      return ({ c with sourcePattern := t }, r)
    | "manifest_name" => do
      let (t, r) ← stringValue "a string" s
      return ({ c with manifestName := t }, r)
    | "report_file" => do
      let (p, r) ← pathReader s
      return ({ c with reportFile := p }, r)
    | "json_report" => do
      let (t, r) ← optionalString "path string" s
      return ({ c with jsonReport := t.map Bytes.ofText }, r)
    | _ => do
      let (t, r) ← Expectations.reader s
      return ({ c with expectations := t }, r)

/-- A configuration. -/
def reader : Json.Reader Config :=
  form.record initial fun _ c => .ok c

/-- The configuration that a JSON text writes, or why there is none. -/
def ofJson (text : String) : Except String Config :=
  let cs := text.toList
  (Json.whole reader cs).mapError (·.message cs)

end Config

end WorkspaceAudit

/-
WorkspaceAudit/Proofs/Manifest/Spellings.lean

A dependency as a table, however it is written.

The fields of a dependency may stand between braces after its name, the name bare or
in quotes; under a header of its own; or under dotted keys (`Spelling`).  Each of
these takes its own way through the reader and leaves a draft of its own, but all
drafts are closed as one document (`Spelling.ofBytes_eq`).  What the check finds in
it is told by the two fields alone.
-/
import WorkspaceAudit.Proofs.Expectation
import WorkspaceAudit.Proofs.Manifest.Edits
import WorkspaceAudit.Proofs.Manifest.Listing
import WorkspaceAudit.Proofs.Toml.Inline

namespace WorkspaceAudit.Manifest

open Toml

/-! ### Spellings -/

/-- A way to write a dependency with fields. -/
inductive Spelling
  /-- Between braces: `name = { key = "value" }`. -/
  | braces
  /-- Between braces, with the name in quotes. -/
  | quoted
  /-- Under a header of its own: `[section.name]`. -/
  | header
  /-- Under dotted keys: `name.key = "value"`. -/
  | dotted
  deriving DecidableEq, Repr

/-- The line of a string under two names. -/
def dottedLine (name : String) (f : String × String) : String :=
  stringLine (name ++ "." ++ f.1) f.2

/-- The lines that give a dependency of a section these fields. -/
def Spelling.lines (s : Section) (name : String) (fields : List (String × String)) :
    Spelling → List String
  | braces => [headerLine s.keys, entryLine name (inlineText fields)]
  | quoted => [headerLine s.keys, entryLine (inQuotes name) (inlineText fields)]
  | header => headerLine (s.keys ++ [name]) :: fields.map fun f => stringLine f.1 f.2
  | dotted => headerLine s.keys :: fields.map (dottedLine name)

/-- The keys of a section as those of a header. -/
def Section.header : Section → KeyPath
  | .dependencies => ⟨[], "dependencies"⟩
  | .devDependencies => ⟨[], "dev-dependencies"⟩
  | .buildDependencies => ⟨[], "build-dependencies"⟩
  | .workspaceDependencies => ⟨["workspace"], "dependencies"⟩

theorem Section.names_header (s : Section) : s.header.names = s.keys := by
  cases s <;> rfl

theorem Section.bare_keys (s : Section) : ∀ n ∈ s.keys, Bare n := by
  cases s <;> decide

/-! ### Fields between braces -/

/-- The value of a dependency with these fields. -/
def tableOf (fields : List (String × String)) : Value :=
  Fields.close (Fields.values (leaves fields))

theorem tableOf_ne_string (fields : List (String × String)) (v : String) :
    tableOf fields ≠ .string v :=
  Fields.close_ne_string _ v

/-- Entries with names of their own make a table of these fields. -/
theorem inlineTable?_stringEntry {fields : List (String × String)}
    (hdistinct : (fields.map Prod.fst).Nodup) :
    inlineTable? (fields.map stringEntry) = .ok (tableOf fields) := by
  have hentries : fields.map stringEntry =
      (fields.map fun e => (e.1, Value.string e.2)).map fieldEntry := by
    rw [List.map_map]
    rfl
  rw [hentries, inlineTable?_fieldEntry (by rwa [List.map_map]), tableOf, values_leaves]

/-! ### Drafts -/

/-- Nothing stands in the empty draft. -/
theorem lookup_empty (name : String) : ([] : Fields).lookup name = none :=
  rfl

/-- The header of a section opens its table. -/
theorem adds_section (s : Section) :
    Adds .empty (headerLine s.keys) ⟨s.header.holding [], s.header.names⟩ := by
  have hlimit : s.header.names.length ≤ keyLimit := by cases s <;> decide
  have hbare : ∀ n ∈ s.header.names, Bare n := by
    rw [s.names_header]
    exact s.bare_keys
  rw [← s.names_header]
  exact adds_header hbare hlimit (Draft.openTable_new (lookup_empty _) [])

/-- A table between braces is one value. -/
theorem adds_braces {s : Section} {name key : String} (hkey : IsKeyText key ⟨[], name⟩)
    {f : String × String} {fields : List (String × String)}
    (hplain : ∀ e ∈ f :: fields, PlainEntry e) (hdistinct : ((f :: fields).map Prod.fst).Nodup) :
    Adds ⟨s.header.holding [], s.header.names⟩ (entryLine key (inlineText (f :: fields)))
      ⟨s.header.holding [(name, .leaf (tableOf (f :: fields)))], s.header.names⟩ := by
  have hvalue : IsValueText (value depthLimit) (inlineText (f :: fields))
      (tableOf (f :: fields)) := by
    -- braces take one level of the depth that is left
    have hread := isValueText_inlineText (c := container (value 77)) hplain
      (inlineTable?_stringEntry hdistinct)
    exact hread
  exact adds_entry hkey hvalue (Draft.insert_last (lookup_empty _) (lookup_empty name) _)

theorem adds_dotted {d d' : Draft} {name : String} (hname : Bare name) {f : String × String}
    (hf : PlainEntry f) (h : d.insert ⟨[name], f.1⟩ (.string f.2) = .ok d') :
    Adds d (dottedLine name f) d' := by
  have hbare : ∀ n ∈ [name, f.1], Bare n :=
    List.forall_mem_cons.mpr ⟨hname, List.forall_mem_singleton.mpr hf.1⟩
  have hkey : IsKeyText (name ++ "." ++ f.1) ⟨[name], f.1⟩ :=
    isKeyText_of_bare (k := ⟨[name], f.1⟩) hbare (show 2 ≤ keyLimit by decide)
  rw [dottedLine, stringLine_eq]
  exact adds_entry hkey (isValueText_inQuotes hf.2 _) h

/-- Where a dotted key has made the table of the name, others add to it. -/
theorem leads_dotted_more (s : Section) {name : String} (hname : Bare name)
    (before : List (String × String)) {after : List (String × String)}
    (hplain : ∀ e ∈ after, PlainEntry e) (hdistinct : ((before ++ after).map Prod.fst).Nodup) :
    Leads ⟨s.header.holding [(name, .table .dotted (leaves before))], s.header.names⟩
      (after.map (dottedLine name))
      ⟨s.header.holding [(name, .table .dotted (leaves (before ++ after)))], s.header.names⟩ := by
  induction after generalizing before with
  | nil =>
    rw [List.append_nil]
    exact .nil
  | cons e after ih =>
    rw [List.forall_mem_cons] at hplain
    have hinsert := Draft.insert_at_last (lookup_empty s.header.first)
      (Fields.insert_dotted_more (lookup_empty name)
        (lookup_leaves_eq_none (not_mem_before_of_nodup hdistinct)) false
        (.repeatedIn s.header.names e.1) (.string e.2))
    rw [leaves_concat] at hinsert
    rw [List.append_cons] at hdistinct ⊢
    exact .cons (adds_dotted hname hplain.1 hinsert) (ih _ hplain.2 hdistinct)

/-- The first dotted key makes the table of the name. -/
theorem leads_dotted (s : Section) {name : String} (hname : Bare name) {f : String × String}
    {fields : List (String × String)} (hplain : ∀ e ∈ f :: fields, PlainEntry e)
    (hdistinct : ((f :: fields).map Prod.fst).Nodup) :
    Leads ⟨s.header.holding [], s.header.names⟩ ((f :: fields).map (dottedLine name))
      ⟨s.header.holding [(name, .table .dotted (leaves (f :: fields)))], s.header.names⟩ := by
  rw [List.forall_mem_cons] at hplain
  have hinsert := Draft.insert_at_last (lookup_empty s.header.first)
    (Fields.insert_dotted_new (lookup_empty name) false (.repeatedIn s.header.names f.1) f.1
      (.string f.2))
  exact .cons (adds_dotted hname hplain.1 hinsert)
    (leads_dotted_more s hname [f] hplain.2 hdistinct)

/-- A header of its own has the fields under it. -/
theorem leads_header (s : Section) {name : String} (hname : Bare name)
    {fields : List (String × String)} (hbare : ∀ e ∈ fields, Bare e.1)
    (hplain : ∀ e ∈ fields, PlainVersion e.2) (hdistinct : (fields.map Prod.fst).Nodup) :
    Leads .empty (headerLine (s.keys ++ [name]) :: fields.map fun f => stringLine f.1 f.2)
      ⟨KeyPath.holding ⟨s.keys, name⟩ (leaves fields), s.keys ++ [name]⟩ := by
  have hkeys : ∀ n ∈ KeyPath.names ⟨s.keys, name⟩, Bare n :=
    List.forall_mem_append.mpr ⟨s.bare_keys, List.forall_mem_singleton.mpr hname⟩
  have hlimit : (s.keys ++ [name]).length ≤ keyLimit := by
    rw [List.length_append, List.length_singleton]
    cases s <;> decide
  have hroot := lookup_empty (KeyPath.first ⟨s.keys, name⟩)
  exact .cons (adds_header hkeys hlimit (Draft.openTable_new hroot []))
    (leads_entries hroot [] hbare hplain hdistinct)

/-! ### Documents -/

/-- The document that has one dependency, with these fields. -/
def documentOf (s : Section) (name : String) (fields : List (String × String)) : Value :=
  Fields.along (s.keys ++ [name]) (tableOf fields)

/-- In the table of a section it makes no difference where a value came from. -/
theorem value_section (s : Section) {name : String} {item : Item}
    {fields : List (String × String)} (hitem : item.value = tableOf fields) (header : List String) :
    Draft.value ⟨s.header.holding [(name, item)], header⟩ = documentOf s name fields := by
  have hclosed : Fields.close (Fields.values [(name, item)]) =
      Fields.along [name] (tableOf fields) := by
    rw [Fields.values, hitem]
    exact Fields.close_singleton name (tableOf_ne_string fields)
  have hkeys : s.header.parents ++ [s.header.last] = s.keys := s.names_header
  rw [Draft.value, KeyPath.holding, Fields.close_under, hclosed, hkeys, documentOf,
    Fields.along_append]

/-- Each spelling leads to a draft of its own, and all are closed alike. -/
theorem Spelling.leads (spelling : Spelling) (s : Section) {name : String} (hname : Bare name)
    {f : String × String} {fields : List (String × String)}
    (hbare : ∀ e ∈ f :: fields, Bare e.1) (hplain : ∀ e ∈ f :: fields, PlainVersion e.2)
    (hdistinct : ((f :: fields).map Prod.fst).Nodup) :
    ∃ d, Leads .empty (spelling.lines s name (f :: fields)) d ∧
      d.value = documentOf s name (f :: fields) := by
  have hentries : ∀ e ∈ f :: fields, PlainEntry e :=
    fun e he => ⟨hbare e he, (hplain e he).isPlain⟩
  cases spelling with
  | braces =>
    exact ⟨_, .cons (adds_section s) (.cons (adds_braces hname.isKeyText hentries hdistinct) .nil),
      value_section s rfl _⟩
  | quoted =>
    exact ⟨_, .cons (adds_section s)
      (.cons (adds_braces (isKeyText_inQuotes hname.isPlain) hentries hdistinct) .nil),
      value_section s rfl _⟩
  | header =>
    refine ⟨_, leads_header s hname hbare hplain hdistinct, ?_⟩
    rw [Draft.value, KeyPath.holding, Fields.close_under]
    rfl
  | dotted =>
    exact ⟨_, .cons (adds_section s) (leads_dotted s hname hentries hdistinct),
      value_section s rfl _⟩

/-- **However a dependency is written, the text is the same document.** -/
theorem Spelling.ofBytes_eq (spelling : Spelling) (s : Section) {name : String}
    (hname : Bare name) {fields : List (String × String)} (hsome : fields ≠ [])
    (hbare : ∀ e ∈ fields, Bare e.1) (hplain : ∀ e ∈ fields, PlainVersion e.2)
    (hdistinct : (fields.map Prod.fst).Nodup) {text : String}
    (htext : InLines (spelling.lines s name fields) text.toList) :
    ofBytes (Bytes.ofText text) = .ok (documentOf s name fields) := by
  obtain ⟨f, fields, rfl⟩ := List.exists_cons_of_ne_nil hsome
  obtain ⟨d, hleads, hd⟩ := spelling.leads s hname hbare hplain hdistinct
  rw [← hd]
  exact ofBytes_of_parse (parse_lines htext hleads)

/-! ### Issues -/

theorem at?_along (path : List String) (v : Value) : at? (Fields.along path v) path = some v := by
  induction path with
  | nil => rfl
  | cons k ks ih => rw [Fields.along, at?_table, List.lookup_cons_self, Option.bind_some, ih]

theorem at?_along_of_parts {path path' : List String} (h : Parts path path') (v : Value) :
    at? (Fields.along path v) path' = none := by
  induction h with
  | here ks ks' hne =>
    rw [Fields.along, at?_table, lookup_cons_eq, if_neg hne.symm]
    rfl
  | inside _ ih => rw [Fields.along, at?_table, List.lookup_cons_self, Option.bind_some, ih]

/-- Where all other elements give nothing, one gives all there is. -/
theorem flatMap_eq_of_unique {α β : Type} {f : α → List β} {as : List α} (hnodup : as.Nodup)
    {a : α} (ha : a ∈ as) (h : ∀ b ∈ as, b ≠ a → f b = []) : as.flatMap f = f a := by
  obtain ⟨before, after, rfl⟩ := List.append_of_mem ha
  rw [List.nodup_middle, List.nodup_cons] at hnodup
  have hnone : ∀ b ∈ before ++ after, f b = [] := by
    intro b hb
    apply h
    · rw [List.mem_append] at hb
      rw [List.mem_append, List.mem_cons]
      exact hb.imp_right .inr
    · rintro rfl
      exact hnodup.1 hb
  rw [List.forall_mem_append] at hnone
  rw [List.flatMap_append, List.flatMap_cons, List.flatMap_eq_nil_iff.mpr hnone.1,
    List.flatMap_eq_nil_iff.mpr hnone.2, List.nil_append, List.append_nil]

section Issues

variable (t : Expectations) (s : Section) (name : String) (fields : List (String × String))

/-- Nothing is found at another place. -/
theorem spot_documentOf_of_ne {x : Place} (h : x.1 = s → x.2.name ≠ name) :
    spot (documentOf s name fields) x = [] := by
  have hparts : Parts (s.keys ++ [name]) x.keys := by
    by_cases hs : s = x.1
    · rw [Place.keys, ← hs]
      exact .append_left _ (.here [] [] (h hs.symm).symm)
    · exact Section.parts hs _ _
  rw [spot, documentOf, at?_along_of_parts hparts]
  rfl

theorem located_documentOf_of_none (h : t.get? name = none) :
    located t (documentOf s name fields) = [] := by
  rw [located, List.flatMap_eq_nil_iff]
  intro x hx
  apply spot_documentOf_of_ne
  intro _
  exact Expectations.get?_eq_none_iff.mp h x.2 (mem_places_iff.mp hx)

theorem located_documentOf_of_some {e : Expectation} (h : t.get? name = some e) :
    located t (documentOf s name fields) =
      (deviationsOf e (tableOf fields)).map (Prod.mk s) := by
  obtain ⟨he, rfl⟩ := Expectations.get?_eq_some_iff.mp h
  have hplace : ((s, e) : Place) ∈ places t := mem_places_iff.mpr he
  rw [located, flatMap_eq_of_unique (nodup_places t) hplace]
  · rw [spot, documentOf, Place.keys, at?_along]
    rfl
  · rintro ⟨s', e'⟩ hx hne
    apply spot_documentOf_of_ne
    rintro rfl hname
    have heq : e' = e := List.inj_on_of_nodup_map t.distinct (mem_places_iff.mp hx) he hname
    exact hne (by rw [heq])

end Issues

/-! ### A version and a path -/

/-- The fields that are checked, in either order. -/
def bothOrders (version path : String) : List (List (String × String)) :=
  [[("version", version), ("path", path)], [("path", path), ("version", version)]]

theorem of_mem_bothOrders {version path : String} {fields : List (String × String)}
    (h : fields ∈ bothOrders version path) :
    fields ≠ [] ∧ (fields.map Prod.fst).Nodup ∧
      ∀ e ∈ fields, e = ("version", version) ∨ e = ("path", path) := by
  rcases List.mem_pair.mp h with rfl | rfl
  · simp
  · simp [or_comm]

/-- The fields of a table are sorted, so their order makes no difference. -/
theorem tableOf_of_mem_bothOrders {version path : String} {fields : List (String × String)}
    (h : fields ∈ bothOrders version path) :
    tableOf fields = .table [("path", .string path), ("version", .string version)] := by
  have hlt : "path" < "version" := by decide
  have hnlt : ¬ "version" < "path" := by decide
  have hsorted : Fields.close ((fields.map fun f => (f.1, .string f.2))) =
      .table ((fields.map fun f => (f.1, .string f.2)).foldr Fields.insertSorted []) := by
    rw [Fields.close, Fields.datetime?_eq_none_of_key]
    rcases List.mem_pair.mp h with rfl | rfl
    · rintro f ⟨⟩
      show "version" ≠ Fields.datetimeKey
      decide
    · rintro f ⟨⟩
      show "path" ≠ Fields.datetimeKey
      decide
  rw [tableOf, values_leaves, hsorted]
  rcases List.mem_pair.mp h with rfl | rfl
  · simp [Fields.insertSorted, hnlt]
  · simp [Fields.insertSorted, hlt]

/-- Each of both fields deviates if it is another string. -/
theorem deviationsOf_both (e : Expectation) (version path : String) :
    deviationsOf e (.table [("path", .string path), ("version", .string version)]) =
      (if version = e.version then [] else [⟨e, .version, some (.string version)⟩]) ++
      (if path = e.path then [] else [⟨e, .path, some (.string path)⟩]) := by
  have hfound : ∀ required v : String,
      (some (Value.string v)).bind Value.string? = some required ↔ v = required := by
    intro required v
    exact Option.some_inj
  have hversion : List.lookup Field.version.key
    [("path", Value.string path), ("version", .string version)] = some (.string version) := rfl
  have hpath : List.lookup Field.path.key
    [("path", Value.string path), ("version", .string version)] = some (.string path) := rfl
  rw [deviationsOf, List.filterMap_eq_flatMap_toList, List.flatMap_cons, List.flatMap_cons,
    List.flatMap_nil, List.append_nil, hversion, hpath]
  simp only [hfound, Field.required, apply_ite Option.toList, Option.toList_none,
    Option.toList_some]

/-- The lines about both fields. -/
theorem map_line_both (e : Expectation) (label version path : String) :
    (deviationsOf e (.table [("path", .string path), ("version", .string version)])).map
        (Deviation.line label) =
      (if version = e.version then []
        else [e.name ++ " in " ++ label ++ ": version " ++ version ++ ", expected " ++
          e.version]) ++
      (if path = e.path then []
        else [e.name ++ " in " ++ label ++ ": path " ++ path ++ ", expected " ++ e.path]) := by
  have hversion : ": version " = ": " ++ "version" ++ " " := rfl
  have hpath : ": path " = ": " ++ "path" ++ " " := rfl
  rw [deviationsOf_both, List.map_append, hversion, hpath]
  simp only [apply_ite (List.map _), List.map_nil, List.map_cons, Deviation.line, Field.key,
    foundText, Field.required, String.append_assoc]

/-- **Every spelling of a dependency is checked alike.**  In whichever way its two
fields are written, and in either order, the text is loaded as one document.  That
has no issue where the table does not have the name, and otherwise a line for each
field that is another string than the one that is required, the version first. -/
theorem ofBytes_spelling (s : Section) {name version path : String} (hname : Bare name)
    (hversion : PlainVersion version) (hpath : PlainVersion path) :
    ∃ document,
      (∀ spelling : Spelling, ∀ fields ∈ bothOrders version path, ∀ text : String,
        InLines (spelling.lines s name fields) text.toList →
          ofBytes (Bytes.ofText text) = .ok document) ∧
      ∀ (t : Expectations) (label : String),
        (t.get? name = none → issues t label document = []) ∧
        ∀ e, t.get? name = some e → issues t label document =
          (if version = e.version then []
            else [name ++ " in " ++ label ++ ": version " ++ version ++ ", expected " ++
              e.version]) ++
          (if path = e.path then []
            else [name ++ " in " ++ label ++ ": path " ++ path ++ ", expected " ++ e.path]) := by
  have hdocument : ∀ fields ∈ bothOrders version path, documentOf s name fields =
      documentOf s name [("version", version), ("path", path)] := by
    intro fields hfields
    rw [documentOf, documentOf, tableOf_of_mem_bothOrders hfields,
      tableOf_of_mem_bothOrders List.mem_cons_self]
  refine ⟨documentOf s name [("version", version), ("path", path)], ?_, ?_⟩
  · intro spelling fields hfields text htext
    obtain ⟨hsome, hdistinct, hmem⟩ := of_mem_bothOrders hfields
    have hbare : ∀ e ∈ fields, Bare e.1 := by
      intro e he
      rcases hmem e he with rfl | rfl
      · show Bare "version"
        decide
      · show Bare "path"
        decide
    have hplain : ∀ e ∈ fields, PlainVersion e.2 := by
      intro e he
      rcases hmem e he with rfl | rfl
      · exact hversion
      · exact hpath
    rw [← hdocument fields hfields]
    exact spelling.ofBytes_eq s hname hsome hbare hplain hdistinct htext
  · intro t label
    constructor
    · intro hnone
      rw [issues_eq, located_documentOf_of_none t s name _ hnone]
      rfl
    · intro e he
      have hmap : ∀ ds : List Deviation,
          (ds.map (Prod.mk s)).map (fun p => p.2.line label) = ds.map (Deviation.line label) :=
        fun ds => List.map_map
      rw [issues_eq, located_documentOf_of_some t s name _ he, hmap,
        tableOf_of_mem_bothOrders List.mem_cons_self, map_line_both,
        (Expectations.get?_eq_some_iff.mp he).2]

/-- A dependency of the workspace in four spellings, with a version that is not the
expected one. -/
theorem workspace_ofBytes_spelling :
    ∃ document,
      (∀ text ∈ ["[workspace.dependencies]\na = \x7b version = \"1\", path = \"./a\" \x7d\n",
          "[workspace.dependencies]\r\n\"a\" = \x7b path = \"./a\", version = \"1\" \x7d",
          "[workspace.dependencies.a]\nversion = \"1\"\npath = \"./a\"\n",
          "[workspace.dependencies]\na.path = \"./a\"\n\na.version = \"1\"\n"],
        ofBytes (Bytes.ofText text) = .ok document) ∧
      issues ⟨[⟨"b", "1", "./b"⟩, ⟨"a", "2", "./a"⟩], by decide⟩ "Cargo.toml" document =
        ["a in Cargo.toml: version 1, expected 2"] := by
  obtain ⟨document, hload, hissues⟩ := ofBytes_spelling .workspaceDependencies
    (by decide : Bare "a") (by decide : PlainVersion "1") (by decide : PlainVersion "./a")
  refine ⟨document, ?_, ?_⟩
  · simp only [List.forall_mem_cons, List.not_mem_nil, false_implies, implies_true, and_true]
    refine ⟨?_, ?_, ?_, ?_⟩
    · apply hload .braces _ List.mem_cons_self
      show InLines ["[workspace.dependencies]", "a = \x7b version = \"1\", path = \"./a\" \x7d"] _
      rw [String.toList_ofList]
      exact .line (.feed _) (.line (.feed _) .nil)
    · apply hload .quoted _ (List.mem_cons_of_mem _ List.mem_cons_self)
      show InLines
        ["[workspace.dependencies]", "\"a\" = \x7b path = \"./a\", version = \"1\" \x7d"] _
      rw [String.toList_ofList]
      exact .line (.both _) (.line .last .nil)
    · apply hload .header _ List.mem_cons_self
      show InLines ["[workspace.dependencies.a]", "version = \"1\"", "path = \"./a\""] _
      rw [String.toList_ofList]
      exact .line (.feed _) (.line (.feed _) (.line (.feed _) .nil))
    · apply hload .dotted _ (List.mem_cons_of_mem _ List.mem_cons_self)
      show InLines ["[workspace.dependencies]", "a.path = \"./a\"", "a.version = \"1\""] _
      rw [String.toList_ofList]
      exact .line (.feed _) (.line (.feed _) (.empty (.feed _) (.line (.feed _) .nil)))
  · obtain ⟨-, hsome⟩ := hissues ⟨[⟨"b", "1", "./b"⟩, ⟨"a", "2", "./a"⟩], by decide⟩ "Cargo.toml"
    exact (hsome ⟨"a", "2", "./a"⟩ rfl).trans (by decide)

end WorkspaceAudit.Manifest

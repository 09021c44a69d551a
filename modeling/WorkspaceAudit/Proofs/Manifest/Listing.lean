/-
WorkspaceAudit/Proofs/Manifest/Listing.lean

Manifests that list versions.

A listing is made of blocks: the header of a section, and under it one line for each
dependency with its version.  Written in lines it is a document (`Listing.parse_eq`),
in which each section has just the versions that are listed under its header
(`Listing.lookup_declared`).  Its issues are therefore told by what is listed; in
which order it is listed does not matter (`ofBytes_listing`).
-/
import Mathlib.Data.List.Nodup
import WorkspaceAudit.Proofs.Manifest
import WorkspaceAudit.Proofs.Toml.Draft
import WorkspaceAudit.Proofs.Toml.Lines

namespace WorkspaceAudit.Manifest

open Toml

/-! ### Listings -/

/-- A version without quotes, backslashes and control characters of ASCII. -/
def PlainVersion (v : String) : Prop :=
  ∀ c ∈ v.toList, c ≠ '"' ∧ c ≠ '\\' ∧ 0x20 ≤ c.toNat ∧ c.toNat ≠ 0x7F

instance (v : String) : Decidable (PlainVersion v) :=
  List.decidableBAll (fun c => c ≠ '"' ∧ c ≠ '\\' ∧ 0x20 ≤ c.toNat ∧ c.toNat ≠ 0x7F) v.toList

/-- The headers under which versions are listed, in the order of the report. -/
def headers : List (List String) :=
  [["dependencies"], ["dev-dependencies"], ["build-dependencies"], ["workspace", "dependencies"]]

/-- A header, and the names and versions under it. -/
structure Block where
  header : KeyPath
  entries : List (String × String)
  isHeader : header.names ∈ headers
  bare : ∀ e ∈ entries, Bare e.1
  plain : ∀ e ∈ entries, PlainVersion e.2
  distinct : (entries.map Prod.fst).Nodup

/-- Blocks with different headers. -/
structure Listing where
  blocks : List Block
  once : (blocks.map fun b => b.header.names).Nodup

/-- The lines of a block. -/
def Block.lines (b : Block) : List String :=
  headerLine b.header.names :: b.entries.map fun e => stringLine e.1 e.2

namespace Listing

/-- A text is the lines of a listing. -/
def Written (l : Listing) (text : String) : Prop :=
  InLines (l.blocks.flatMap Block.lines) text.toList

/-- What is listed: headers, names and versions. -/
def listed (l : Listing) : List (List String × String × String) :=
  l.blocks.flatMap fun b => b.entries.map fun e => (b.header.names, e)

/-- The version that is listed for a name under a header. -/
def version? (l : Listing) (path : List String) (name : String) : Option String :=
  (l.blocks.find? fun b => b.header.names == path).bind fun b => b.entries.lookup name

/-- The issues that are to be reported: header by header, in the order of the
expectations, the listed versions that are not required. -/
def issues (l : Listing) (t : Expectations) (label : String) : List Issue :=
  headers.flatMap fun path =>
    t.entries.filterMap fun e =>
      (l.version? path e.name).bind fun v =>
        if v = e.version then none
        else some (e.name ++ " in " ++ label ++ ": version " ++ v ++ ", expected " ++ e.version)

end Listing

/-- What a text writes is what its bytes do. -/
theorem ofBytes_of_parse {text : String} {v : Toml.Value} (h : parse text = .ok v) :
    ofBytes (Bytes.ofText text) = .ok v := by
  rw [ofBytes, Bytes.text?_ofText]
  dsimp only
  rw [ofText, h]

/-! ### Headers -/

theorem bare_of_mem_headers : ∀ path ∈ headers, ∀ n ∈ path, Bare n := by
  decide

/-- Each header starts with a name of its own. -/
theorem headers_first : ∀ path ∈ headers, ∀ path' ∈ headers,
    path.head? = path'.head? → path = path' := by
  decide

theorem head?_names (k : KeyPath) : k.names.head? = some k.first := by
  obtain ⟨parents, last⟩ := k
  cases parents <;> rfl

theorem Block.names_eq_of_first {b : Block} {path : List String} (hpath : path ∈ headers)
    (h : path.head? = some b.header.first) : b.header.names = path :=
  headers_first _ b.isHeader _ hpath (by rw [head?_names, h])

/-! ### The draft of a listing -/

/-- The fields that the lines of a block add. -/
def leaves (entries : List (String × String)) : Fields :=
  entries.map fun e => (e.1, .leaf (.string e.2))

theorem leaves_eq (entries : List (String × String)) :
    leaves entries = Fields.leaves (entries.map fun e => (e.1, .string e.2)) := by
  rw [leaves, Fields.leaves, List.map_map]
  rfl

theorem lookup_leaves_eq_none {entries : List (String × String)} {name : String}
    (h : name ∉ entries.map Prod.fst) : (leaves entries).lookup name = none := by
  rw [leaves_eq]
  exact Fields.lookup_leaves_eq_none (by rwa [List.map_map])

theorem leaves_concat (entries : List (String × String)) (e : String × String) :
    leaves entries ++ [(e.1, .leaf (.string e.2))] = leaves (entries ++ [e]) := by
  simp [leaves]

theorem PlainVersion.isPlain {v : String} (h : PlainVersion v) : ∀ c ∈ v.toList, isPlain c := by
  intro c hc
  obtain ⟨hquote, hback, hlow, hdelete⟩ := h c hc
  simp only [Toml.isPlain, isPrintable, Bool.and_eq_true, Bool.or_eq_true, decide_eq_true_eq,
    bne_iff_ne]
  exact ⟨⟨.inr ⟨hlow, hdelete⟩, hquote⟩, hback⟩

section Draft

variable {root : Fields} {k : KeyPath} (hnew : root.lookup k.first = none)
include hnew

/-- Each line adds its field at the end of the last table. -/
theorem leads_entries (before : List (String × String)) {after : List (String × String)}
    (hbare : ∀ e ∈ after, Bare e.1) (hplain : ∀ e ∈ after, PlainVersion e.2)
    (hdistinct : ((before ++ after).map Prod.fst).Nodup) :
    Leads ⟨root ++ k.holding (leaves before), k.names⟩ (after.map fun e => stringLine e.1 e.2)
      ⟨root ++ k.holding (leaves (before ++ after)), k.names⟩ := by
  induction after generalizing before with
  | nil =>
    rw [List.append_nil]
    exact .nil
  | cons e after ih =>
    rw [List.forall_mem_cons] at hbare hplain
    have hinsert := Draft.insert_last hnew
      (lookup_leaves_eq_none (not_mem_before_of_nodup hdistinct)) (.string e.2)
    rw [leaves_concat] at hinsert
    rw [List.append_cons] at hdistinct ⊢
    exact .cons (adds_string hbare.1 hplain.1.isPlain hinsert) (ih _ hbare.2 hplain.2 hdistinct)

end Draft

/-- A block adds the tables of its header, with its fields. -/
theorem Block.leads (b : Block) {root : Fields} (hnew : root.lookup b.header.first = none)
    (header : List String) :
    Leads ⟨root, header⟩ b.lines ⟨root ++ b.header.holding (leaves b.entries), b.header.names⟩ := by
  have hlimit : ∀ path ∈ headers, path.length ≤ keyLimit := by decide
  have hopened := Draft.openTable_new hnew header
  refine .cons (adds_header (bare_of_mem_headers _ b.isHeader) (hlimit _ b.isHeader) hopened) ?_
  exact leads_entries hnew [] b.bare b.plain b.distinct

/-- The fields that blocks add, one for each. -/
def fieldsOf (bs : List Block) : Fields :=
  bs.flatMap fun b => b.header.holding (leaves b.entries)

theorem map_fst_fieldsOf (bs : List Block) :
    (fieldsOf bs).map Prod.fst = bs.map fun b => b.header.first := by
  rw [fieldsOf, List.map_flatMap]
  simp only [KeyPath.map_fst_holding]
  exact List.flatMap_pure_eq_map _ bs

/-- Blocks with first names of their own are added one after another. -/
theorem leads_blocks (before bs : List Block) (header : List String)
    (hdistinct : ((before ++ bs).map fun b => b.header.first).Nodup) :
    ∃ header', Leads ⟨fieldsOf before, header⟩ (bs.flatMap Block.lines)
      ⟨fieldsOf (before ++ bs), header'⟩ := by
  -- the root holds the fields of the blocks before, so the next header is new
  induction bs generalizing before header with
  | nil =>
    rw [List.append_nil]
    exact ⟨header, .nil⟩
  | cons b bs ih =>
    have hnew : (fieldsOf before).lookup b.header.first = none := by
      rw [lookup_eq_none_iff, map_fst_fieldsOf]
      exact not_mem_before_of_nodup hdistinct
    rw [List.append_cons] at hdistinct ⊢
    obtain ⟨header', hrest⟩ := ih (before ++ [b]) b.header.names hdistinct
    have hfields : fieldsOf before ++ b.header.holding (leaves b.entries) =
        fieldsOf (before ++ [b]) := by simp [fieldsOf]
    have hblock := b.leads hnew header
    rw [hfields] at hblock
    exact ⟨header', hblock.append hrest⟩

/-! ### The document of a listing -/

namespace Listing

variable (l : Listing)

/-- Blocks with different headers start with different names. -/
theorem nodup_first : (l.blocks.map fun b => b.header.first).Nodup := by
  rw [List.nodup_map_iff_inj_on (List.Nodup.of_map _ l.once)]
  intro b hb b' hb' hfirst
  refine List.inj_on_of_nodup_map l.once hb hb' (b.names_eq_of_first b'.isHeader ?_)
  rw [head?_names, hfirst]

/-- The document of a listing. -/
def document : Toml.Value :=
  Fields.close (Fields.values (fieldsOf l.blocks))

/-- A text of a listing is its document. -/
theorem parse_eq {text : String} (h : l.Written text) : parse text = .ok l.document := by
  obtain ⟨header, hleads⟩ := leads_blocks [] l.blocks [] l.nodup_first
  exact parse_lines h hleads

end Listing

/-- The table of a header stands at the end of its path. -/
theorem at?_under {fs : Fields} {last : String} {parents : List String} {v : Toml.Value}
    (h : v.get? (parents.headD last) =
      (Fields.values (Fields.under fs last parents)).lookup (parents.headD last)) :
    at? v (parents ++ [last]) = some (Fields.close (Fields.values fs)) := by
  induction parents generalizing v with
  | nil =>
    rw [List.nil_append, at?]
    rw [List.headD_nil] at h
    rw [h]
    exact congrArg (Option.bind · _) List.lookup_cons_self
  | cons k ks ih =>
    rw [List.headD_cons] at h
    have hk : v.get? k = some (Fields.close (Fields.values (Fields.under fs last ks))) :=
      h.trans List.lookup_cons_self
    rw [List.cons_append, at?, hk, Option.bind_some]
    refine ih (Fields.get?_close ?_ ?_ _)
    · refine Fields.datetime?_eq_none_of_value fun f hf => ?_
      exact Fields.under_value_ne_string fs last ks f (List.mem_of_mem_head? hf)
    · cases ks <;> exact List.pairwise_singleton _ _

theorem values_leaves (entries : List (String × String)) :
    Fields.values (leaves entries) = entries.map fun e => (e.1, .string e.2) := by
  rw [leaves_eq, Fields.values_leaves]

theorem lookup_map_string (entries : List (String × String)) (name : String) :
    (entries.map fun e => (e.1, Toml.Value.string e.2)).lookup name =
      (entries.lookup name).map .string := by
  induction entries with
  | nil => rfl
  | cons e entries ih =>
    obtain ⟨n, v⟩ := e
    rw [List.map_cons, lookup_cons_eq, lookup_cons_eq, ih]
    split <;> rfl

/-- The table of a block has the versions that are listed. -/
theorem Block.get?_closed (b : Block) (name : String) :
    (Fields.close (Fields.values (leaves b.entries))).get? name =
      (b.entries.lookup name).map .string := by
  rw [values_leaves, ← lookup_map_string]
  refine Fields.get?_close (Fields.datetime?_eq_none_of_key fun f hf => ?_) ?_ name
  · obtain ⟨e, he, rfl⟩ := List.mem_map.mp (List.mem_of_mem_head? hf)
    intro heq
    have hdollar := (b.bare e he).2 '$' (by rw [heq]; decide)
    exact absurd hdollar (by decide)
  · exact List.pairwise_map.mpr (List.pairwise_map.mp b.distinct)

theorem values_fieldsOf (bs : List Block) : Fields.values (fieldsOf bs) =
    bs.flatMap fun b => Fields.values (b.header.holding (leaves b.entries)) := by
  induction bs with
  | nil => rfl
  | cons b bs ih =>
    rw [List.flatMap_cons, ← ih, ← Fields.values_append]
    rfl

namespace Listing

variable (l : Listing)

theorem pairwise_document : (Fields.values (fieldsOf l.blocks)).Pairwise fun a b => a.1 ≠ b.1 := by
  have hfirst := l.nodup_first
  rw [← map_fst_fieldsOf, ← Fields.map_fst_values] at hfirst
  exact List.pairwise_map.mp hfirst

theorem get?_document (key : String) :
    l.document.get? key = (Fields.values (fieldsOf l.blocks)).lookup key := by
  refine Fields.get?_close (Fields.datetime?_eq_none_of_value fun f hf => ?_) l.pairwise_document key
  have hmem := List.mem_of_mem_head? hf
  rw [values_fieldsOf, List.mem_flatMap] at hmem
  obtain ⟨b, -, hmem⟩ := hmem
  exact Fields.under_value_ne_string _ _ _ f hmem

/-- The first name of a block leads into the block. -/
theorem get?_first {b : Block} (hb : b ∈ l.blocks) : l.document.get? b.header.first =
    (Fields.values (b.header.holding (leaves b.entries))).lookup b.header.first := by
  rw [get?_document]
  rcases hx : (Fields.values (b.header.holding (leaves b.entries))).lookup b.header.first with - | x
  · rw [lookup_eq_none_iff, Fields.map_fst_values, KeyPath.map_fst_holding] at hx
    exact absurd (List.mem_singleton_self _) hx
  · rw [← mem_iff_lookup l.pairwise_document, values_fieldsOf, List.mem_flatMap]
    exact ⟨b, hb, mem_of_lookup hx⟩

theorem at?_header {b : Block} (hb : b ∈ l.blocks) : at? l.document b.header.names =
    some (Fields.close (Fields.values (leaves b.entries))) :=
  at?_under (l.get?_first hb)

/-- Nothing stands where no block is. -/
theorem at?_eq_none {path : List String} (hpath : path ∈ headers)
    (hnone : ∀ b ∈ l.blocks, b.header.names ≠ path) : at? l.document path = none := by
  cases path with
  | nil => exact absurd hpath (by decide)
  | cons k ks =>
    have hk : l.document.get? k = none := by
      rw [get?_document, lookup_eq_none_iff, Fields.map_fst_values, map_fst_fieldsOf]
      intro hmem
      obtain ⟨b, hb, rfl⟩ := List.mem_map.mp hmem
      exact hnone b hb (b.names_eq_of_first hpath rfl)
    rw [at?, hk]
    rfl

end Listing

namespace Listing

variable (l : Listing)

/-- **A section declares just the versions that are listed under its header.** -/
theorem lookup_declared {path : List String} (hpath : path ∈ headers) (name : String) :
    (declared l.document path).lookup name = (l.version? path name).map .string := by
  rw [lookup_declared_eq, version?]
  rcases hfind : l.blocks.find? fun b => b.header.names == path with - | b
  · rw [l.at?_eq_none hpath fun b hb heq => List.find?_eq_none.mp hfind b hb (beq_iff_eq.mpr heq),
      hfind]
    rfl
  · obtain ⟨hb, rfl⟩ := (find?_eq_some_iff_of_nodup l.once).mp hfind
    rw [l.at?_header hb, hfind]
    exact b.get?_closed name

/-! ### Issues -/

/-- What deviates in a document is what is listed and not required. -/
theorem issues_document (t : Expectations) (label : String) :
    Manifest.issues t label l.document = l.issues t label := by
  have hsections : sections = headers := rfl
  rw [Manifest.issues, deviations, hsections, List.map_flatMap, issues]
  refine List.flatMap_congr fun path hpath => ?_
  rw [sectionDeviations, List.map_flatMap, List.filterMap_eq_flatMap_toList]
  refine List.flatMap_congr fun e _ => ?_
  rw [l.lookup_declared hpath]
  rcases l.version? path e.name with - | v
  · rfl
  · rw [Option.map_some, Option.bind_some]
    dsimp only
    rw [deviationsOf]
    split
    · rfl
    · have hversion : ": version " = ": " ++ "version" ++ " " := by decide
      rw [hversion]
      simp only [List.map_cons, List.map_nil, Option.toList_some, Deviation.line, Field.key,
        foundText, Field.required, String.append_assoc]

theorem version?_eq_some_iff {path : List String} {name v : String} :
    l.version? path name = some v ↔ (path, name, v) ∈ l.listed := by
  rw [version?, listed, Option.bind_eq_some_iff, List.mem_flatMap]
  simp only [find?_eq_some_iff_of_nodup l.once, and_assoc]
  refine exists_congr fun b => and_congr_right fun _ => ?_
  rw [← mem_iff_lookup (List.pairwise_map.mp b.distinct), List.mem_map]
  constructor
  · rintro ⟨rfl, hv⟩
    exact ⟨_, hv, rfl⟩
  · rintro ⟨e, he, heq⟩
    cases heq
    exact ⟨rfl, he⟩

/-- Where the same is listed, the same is reported. -/
theorem issues_congr {l l' : Listing} (h : ∀ x, x ∈ l'.listed ↔ x ∈ l.listed) (t : Expectations)
    (label : String) : l'.issues t label = l.issues t label := by
  have hversion : ∀ path name, l'.version? path name = l.version? path name := by
    intro path name
    ext v
    rw [version?_eq_some_iff, version?_eq_some_iff, h]
  simp only [issues, hversion]

theorem ofBytes_eq {text : String} (h : l.Written text) :
    ofBytes (Bytes.ofText text) = .ok l.document :=
  ofBytes_of_parse (l.parse_eq h)

end Listing

/-- **The issues of a listing are what is listed and not required.**  A manifest that
lists versions is loaded, and its issues are those of the listing: section by section,
in the order of the expectations.  A manifest that lists the same in another order,
blocks and lines, has the same issues. -/
theorem ofBytes_listing (t : Expectations) (label : String) {l : Listing} {text : String}
    (h : l.Written text) :
    ∃ document, ofBytes (Bytes.ofText text) = .ok document ∧
      issues t label document = l.issues t label ∧
      ∀ (l' : Listing) (text' : String), l'.Written text' → (∀ x, x ∈ l'.listed ↔ x ∈ l.listed) →
        ∃ document', ofBytes (Bytes.ofText text') = .ok document' ∧
          issues t label document' = issues t label document := by
  refine ⟨l.document, l.ofBytes_eq h, l.issues_document t label, fun l' text' h' hsame => ?_⟩
  refine ⟨l'.document, l'.ofBytes_eq h', ?_⟩
  rw [l'.issues_document, l.issues_document, Listing.issues_congr hsame]

/-- Two sections with a dependency in common. -/
def sample : Listing where
  blocks :=
    [⟨⟨["workspace"], "dependencies"⟩, [("b", "2")],
        by decide, by decide, by decide, by decide⟩,
     ⟨⟨[], "dependencies"⟩, [("a", "1"), ("b", "é")],
        by decide, by decide, by decide, by decide⟩]
  once := by decide

theorem sample_ofBytes_listing :
    ∃ document,
      ofBytes (Bytes.ofText
          "[workspace.dependencies]\nb = \"2\"\n\n[dependencies]\r\na = \"1\"\nb = \"é\"") =
        .ok document ∧
      issues ⟨[⟨"b", "3", "x"⟩, ⟨"a", "1", "y"⟩], by decide⟩ "Cargo.toml" document =
        ["b in Cargo.toml: version é, expected 3", "b in Cargo.toml: version 2, expected 3"] := by
  have hwritten : sample.Written
      "[workspace.dependencies]\nb = \"2\"\n\n[dependencies]\r\na = \"1\"\nb = \"é\"" := by
    refine InLines.line (l := "[workspace.dependencies]") (.feed _) ?_
    refine InLines.line (l := "b = \"2\"") (.feed _) (.empty (.feed _) ?_)
    refine InLines.line (l := "[dependencies]") (.both _) ?_
    refine InLines.line (l := "a = \"1\"") (.feed _) ?_
    exact InLines.line (l := "b = \"é\"") .last .nil
  obtain ⟨document, hload, hissues, -⟩ := ofBytes_listing
    ⟨[⟨"b", "3", "x"⟩, ⟨"a", "1", "y"⟩], by decide⟩ "Cargo.toml" hwritten
  exact ⟨document, hload, hissues.trans (by decide)⟩

end WorkspaceAudit.Manifest

/-
WorkspaceAudit/Proofs/Manifest/Deviations.lean

The deviations of a manifest, each at its place.

A deviation stands in a section, under the name of an expectation, in one field.
`Deviates` says which there are, without going through the sections:

* a string in the place of a dependency deviates in its version, if it is
  another one;
* a table deviates in its version, in its path or in both, wherever another
  string, another value or nothing at all stands in the place of the one that
  is required;
* nothing else deviates, whatever the document holds.

`Precedes` is the order of the report, and `Says` the line about a deviation.  It shows
a string as it is and any other value as a text that reads back as the value, but a
date that is not within another value as a table that stands for it (`Shows`).
The headline is that the issues of a document are the lines of all its
deviations, each once and in that order (`issues_enumerate`).

For statements about single places the check is laid out as a list of places
(`located`): what it finds at one place depends on what stands there alone
(`spot`).
-/
import Mathlib.Data.List.Nodup
import Mathlib.Data.List.ProdSigma
import WorkspaceAudit.Proofs.Manifest
import WorkspaceAudit.Proofs.Toml.Values

namespace WorkspaceAudit.Manifest

/-! ### Sections -/

/-- A part of a document in which dependencies are declared; in the order of the
report. -/
inductive Section
  | dependencies
  | devDependencies
  | buildDependencies
  | workspaceDependencies
  deriving DecidableEq, Repr

namespace Section

/-- All sections. -/
def all : List Section :=
  [dependencies, devDependencies, buildDependencies, workspaceDependencies]

/-- The keys that lead to a section, one for each table on the way. -/
def keys : Section → List String
  | dependencies => ["dependencies"]
  | devDependencies => ["dev-dependencies"]
  | buildDependencies => ["build-dependencies"]
  | workspaceDependencies => ["workspace", "dependencies"]

/-- `s.IsTable document fs`: the section `s` is there, as a table with the fields
`fs`. -/
inductive IsTable (document : Toml.Value) : Section → List (String × Toml.Value) → Prop
  | dependencies {fs : List (String × Toml.Value)} :
      document.get? "dependencies" = some (.table fs) → IsTable document dependencies fs
  | devDependencies {fs : List (String × Toml.Value)} :
      document.get? "dev-dependencies" = some (.table fs) → IsTable document devDependencies fs
  | buildDependencies {fs : List (String × Toml.Value)} :
      document.get? "build-dependencies" = some (.table fs) →
      IsTable document buildDependencies fs
  | workspaceDependencies {w : Toml.Value} {fs : List (String × Toml.Value)} :
      document.get? "workspace" = some w → w.get? "dependencies" = some (.table fs) →
      IsTable document workspaceDependencies fs

theorem mem_all (s : Section) : s ∈ all := by
  cases s <;> decide

theorem nodup_all : all.Nodup := by
  decide

theorem isTable_iff {document : Toml.Value} {s : Section} {fs : List (String × Toml.Value)} :
    IsTable document s fs ↔ at? document s.keys = some (.table fs) := by
  constructor
  · rintro (h | h | h | ⟨hw, h⟩)
    · simp [keys, at?, h]
    · simp [keys, at?, h]
    · simp [keys, at?, h]
    · simp [keys, at?, hw, h]
  · intro h
    cases s with
    | dependencies => exact .dependencies (by simpa [keys, at?] using h)
    | devDependencies => exact .devDependencies (by simpa [keys, at?] using h)
    | buildDependencies => exact .buildDependencies (by simpa [keys, at?] using h)
    | workspaceDependencies =>
      simp only [keys, at?, Option.bind_eq_some_iff] at h
      obtain ⟨w, hw, v, hv, h⟩ := h
      cases h
      exact .workspaceDependencies hw hv

end Section

theorem at?_append (document : Toml.Value) (path rest : List String) :
    at? document (path ++ rest) = (at? document path).bind fun v => at? v rest := by
  induction path generalizing document with
  | nil => rfl
  | cons k ks ih =>
    rw [List.cons_append, at?, at?, Option.bind_assoc]
    exact congrArg _ (funext fun v => ih v)

theorem at?_concat (document : Toml.Value) (path : List String) (name : String) :
    at? document (path ++ [name]) = (declared document path).lookup name := by
  rw [at?_append, lookup_declared_eq]
  refine congrArg _ (funext fun v => ?_)
  show (v.get? name).bind some = v.get? name
  rw [Option.bind_fun_some]

/-- What stands under a name in a section is a field of its table. -/
theorem at?_section_iff {document : Toml.Value} {s : Section} {name : String} {v : Toml.Value} :
    at? document (s.keys ++ [name]) = some v ↔
      ∃ fs, s.IsTable document fs ∧ fs.lookup name = some v := by
  rw [at?_concat]
  constructor
  · intro h
    exact ⟨_, Section.isTable_iff.mpr (at?_of_mem_declared (mem_of_lookup h)), h⟩
  · rintro ⟨fs, hfs, h⟩
    rw [declared_of_at? (Section.isTable_iff.mp hfs)]
    exact h

/-! ### Deviations and their order -/

/-- `Deviates t document s d`: in the section `s` of the document, `d` is a field
that is not what an expectation of the table requires. -/
inductive Deviates (t : Expectations) (document : Toml.Value) : Section → Deviation → Prop
  | version {s : Section} {fs : List (String × Toml.Value)} {e : Expectation} {v : String} :
      s.IsTable document fs → e ∈ t.entries → fs.lookup e.name = some (.string v) →
      v ≠ e.version → Deviates t document s ⟨e, .version, some (.string v)⟩
  | field {s : Section} {fs gs : List (String × Toml.Value)} {e : Expectation} (f : Field) :
      s.IsTable document fs → e ∈ t.entries → fs.lookup e.name = some (.table gs) →
      gs.lookup f.key ≠ some (.string (f.required e)) →
      Deviates t document s ⟨e, f, gs.lookup f.key⟩

/-- The order of the report: by section, then by entry of the table, then the
version before the path.  `[a, b] <+ l` says that `a` comes before `b` in `l`. -/
inductive Precedes (t : Expectations) : Section × Deviation → Section × Deviation → Prop
  | inSections {s s' : Section} (d d' : Deviation) :
      [s, s'].Sublist Section.all → Precedes t (s, d) (s', d')
  | inEntries {e e' : Expectation} (s : Section) (f f' : Field) (x x' : Option Toml.Value) :
      [e, e'].Sublist t.entries → Precedes t (s, ⟨e, f, x⟩) (s, ⟨e', f', x'⟩)
  | inFields (s : Section) (e : Expectation) (x x' : Option Toml.Value) :
      Precedes t (s, ⟨e, .version, x⟩) (s, ⟨e, .path, x'⟩)

/-- `Shows found shown`: what is found is shown as this. -/
inductive Shows : Option Toml.Value → String → Prop
  | absent : Shows none "None"
  | string (s : String) : Shows (some (.string s)) s
  | datetime {d : Toml.Datetime} {cs : List Char} : (Toml.Value.datetime d).IsWritten cs →
      Shows (some (.datetime d))
        ("\x7b \"$__toml_private_datetime\" = \"" ++ String.ofList cs ++ "\" \x7d")
  | other {v : Toml.Value} {cs : List Char} : v.string? = none → (∀ d, v ≠ .datetime d) →
      v.IsWritten cs → Shows (some v) (String.ofList cs)

/-- `Says label d issue`: the issue is the line about the deviation in the manifest
of that label. -/
inductive Says (label : String) : Deviation → Issue → Prop
  | line (e : Expectation) (f : Field) {found : Option Toml.Value} {shown : String} :
      Shows found shown →
      Says label ⟨e, f, found⟩
        (e.name ++ " in " ++ label ++ ": " ++ f.key ++ " " ++ shown ++ ", expected " ++
          f.required e)

/-- All deviations of a document, each with its section, in the order of the
report. -/
structure Enumerates (t : Expectations) (document : Toml.Value)
    (ds : List (Section × Deviation)) : Prop where
  ordered : ds.Pairwise (Precedes t)
  complete : ∀ s d, (s, d) ∈ ds ↔ Deviates t document s d

/-- Nothing precedes itself, so what is in order comes once. -/
theorem Precedes.ne {t : Expectations} {p q : Section × Deviation} (h : Precedes t p q) :
    p ≠ q := by
  cases h with
  | inSections d d' hs =>
    intro heq
    rw [(Prod.mk.inj heq).1] at hs
    exact List.nodup_iff_sublist.mp Section.nodup_all _ hs
  | inEntries s f f' x x' he =>
    intro heq
    rw [(Deviation.mk.inj (Prod.mk.inj heq).2).1] at he
    exact List.nodup_iff_sublist.mp t.distinct.of_map _ he
  | inFields => simp

theorem Enumerates.nodup {t : Expectations} {document : Toml.Value}
    {ds : List (Section × Deviation)} (h : Enumerates t document ds) : ds.Nodup :=
  h.ordered.imp Precedes.ne

/-- What is shown is the text of the value, and of a date the table that stands for
it. -/
theorem shows_foundText (found : Option Toml.Value) : Shows found (foundText found) := by
  rcases found with - | v
  · exact .absent
  have hwritten := v.isWritten
  cases v with
  | string s => exact .string s
  | datetime d =>
    have htext : foundText (some (.datetime d)) =
        "\x7b \"$__toml_private_datetime\" = \"" ++
          String.ofList (Toml.Value.datetime d).text ++ "\" \x7d" := by
      show String.ofList (Toml.Value.datetime d).aloneText = _
      rw [Toml.Value.aloneText_datetime, String.ofList_append, String.ofList_append,
        String.ofList_toList, String.ofList_toList, Toml.Value.text]
    rw [htext]
    exact .datetime hwritten
  | integer n => exact .other rfl nofun hwritten
  | float x => exact .other rfl nofun hwritten
  | boolean b => exact .other rfl nofun hwritten
  | array vs => exact .other rfl nofun hwritten
  | table fs => exact .other rfl nofun hwritten

theorem says_line (label : String) (d : Deviation) : Says label d (d.line label) :=
  .line d.expectation d.field (shows_foundText d.found)

/-! ### One place -/

/-- A place that is looked at: a section and an expectation. -/
abbrev Place := Section × Expectation

/-- The place of a deviation. -/
def place (p : Section × Deviation) : Place :=
  (p.1, p.2.expectation)

/-- The keys that lead to a place. -/
def Place.keys (x : Place) : List String :=
  x.1.keys ++ [x.2.name]

/-- What an expectation makes of what stands under its name. -/
def deviationsAt (e : Expectation) : Option Toml.Value → List Deviation
  | some v => deviationsOf e v
  | none => []

/-- What the check finds at a place. -/
def spot (document : Toml.Value) (x : Place) : List (Section × Deviation) :=
  (deviationsAt x.2 (at? document (Place.keys x))).map (Prod.mk x.1)

/-- All places, in the order in which they are looked at. -/
def places (t : Expectations) : List Place :=
  Section.all ×ˢ t.entries

/-- What the check finds, place by place. -/
def located (t : Expectations) (document : Toml.Value) : List (Section × Deviation) :=
  (places t).flatMap (spot document)

theorem mem_places_iff {t : Expectations} {x : Place} : x ∈ places t ↔ x.2 ∈ t.entries := by
  rw [places, List.mem_product, and_iff_right (Section.mem_all x.1)]

theorem nodup_places (t : Expectations) : (places t).Nodup :=
  Section.nodup_all.product t.distinct.of_map

theorem located_eq (t : Expectations) (document : Toml.Value) :
    located t document =
      Section.all.flatMap fun s => t.entries.flatMap fun e => spot document (s, e) := by
  show (Section.all.flatMap fun s => t.entries.map (Prod.mk s)).flatMap (spot document) = _
  rw [List.flatMap_assoc]
  exact List.flatMap_congr fun s _ => List.flatMap_map _ _ _

theorem mem_spot_iff {document : Toml.Value} {x : Place} {p : Section × Deviation} :
    p ∈ spot document x ↔
      ∃ fs v, x.1.IsTable document fs ∧ fs.lookup x.2.name = some v ∧
        ∃ d ∈ deviationsOf x.2 v, (x.1, d) = p := by
  rw [spot, List.mem_map]
  constructor
  · rintro ⟨d, hd, rfl⟩
    rcases hv : at? document (Place.keys x) with - | v
    · rw [hv] at hd
      cases hd
    · rw [hv] at hd
      obtain ⟨fs, hfs, hv⟩ := at?_section_iff.mp hv
      exact ⟨fs, v, hfs, hv, d, hd, rfl⟩
  · rintro ⟨fs, v, hfs, hv, d, hd, rfl⟩
    rw [Place.keys, at?_section_iff.mpr ⟨fs, hfs, hv⟩]
    exact ⟨d, hd, rfl⟩

/-- What is found at a place is about that place. -/
theorem place_of_mem_spot {document : Toml.Value} {x : Place} {p : Section × Deviation}
    (h : p ∈ spot document x) : place p = x := by
  obtain ⟨fs, v, -, -, d, hd, rfl⟩ := mem_spot_iff.mp h
  rw [place, expectation_of_mem_deviationsOf hd]

theorem spot_ordered (t : Expectations) (document : Toml.Value) (x : Place) :
    (spot document x).Pairwise (Precedes t) := by
  rw [spot, List.pairwise_map]
  rcases at? document (Place.keys x) with - | v
  · exact .nil
  · -- at most the two fields, and the version first
    have hfields : [Field.version, Field.path].Pairwise fun f f' => f = .version ∧ f' = .path := by
      simp
    have hpairs := List.pairwise_map.mp
      (hfields.sublist (map_field_deviationsOf_sublist x.2 v))
    refine hpairs.imp_of_mem ?_
    rintro ⟨e, f, found⟩ ⟨e', f', found'⟩ hd hd' ⟨hf, hf'⟩
    obtain rfl : e = x.2 := expectation_of_mem_deviationsOf hd
    obtain rfl : e' = x.2 := expectation_of_mem_deviationsOf hd'
    obtain rfl : f = .version := hf
    obtain rfl : f' = .path := hf'
    exact .inFields x.1 x.2 found found'

/-! ### All places -/

variable (t : Expectations) (document : Toml.Value)

theorem deviations_eq : deviations t document = (located t document).map Prod.snd := by
  have hsections : sections = Section.all.map Section.keys := rfl
  rw [deviations, hsections, List.flatMap_map, located_eq, List.map_flatMap]
  refine List.flatMap_congr fun s _ => ?_
  rw [sectionDeviations, List.map_flatMap]
  refine List.flatMap_congr fun e _ => ?_
  rw [spot, Place.keys, at?_concat, List.map_map]
  rcases (declared document s.keys).lookup e.name with - | v
  · rfl
  · exact (List.map_id _).symm

/-- The issues are the lines of what is found. -/
theorem issues_eq (label : String) :
    issues t label document = (located t document).map fun p => p.2.line label := by
  rw [issues, deviations_eq, List.map_map]
  rfl

theorem mem_located_iff_deviates {s : Section} {d : Deviation} :
    (s, d) ∈ located t document ↔ Deviates t document s d := by
  rw [located, List.mem_flatMap]
  constructor
  · rintro ⟨⟨s', e⟩, he, hd⟩
    obtain ⟨fs, v, hfs, hv, d, hd, ⟨⟩⟩ := mem_spot_iff.mp hd
    rw [mem_places_iff] at he
    rcases mem_deviationsOf_iff.mp hd with ⟨v, rfl, hne, rfl⟩ | ⟨gs, f, rfl, hne, rfl⟩
    · exact .version hfs he hv hne
    · exact .field f hfs he hv hne
  · intro h
    cases h with
    | @version fs e v hfs he hv hne =>
      refine ⟨(s, e), mem_places_iff.mpr he, mem_spot_iff.mpr ⟨fs, _, hfs, hv, _, ?_, rfl⟩⟩
      exact mem_deviationsOf_iff.mpr (.inl ⟨v, rfl, hne, rfl⟩)
    | @field fs gs e f hfs he hv hne =>
      refine ⟨(s, e), mem_places_iff.mpr he, mem_spot_iff.mpr ⟨fs, _, hfs, hv, _, ?_, rfl⟩⟩
      exact mem_deviationsOf_iff.mpr (.inr ⟨gs, f, rfl, hne, rfl⟩)

theorem pairwise_sublist {α : Type} (l : List α) : l.Pairwise fun a b => [a, b].Sublist l :=
  List.pairwise_iff_forall_sublist.mpr fun h => h

theorem located_ordered : (located t document).Pairwise (Precedes t) := by
  rw [located_eq, List.pairwise_flatMap]
  refine ⟨fun s _ => ?_, (pairwise_sublist Section.all).imp ?_⟩
  · rw [List.pairwise_flatMap]
    refine ⟨fun e _ => spot_ordered t document (s, e), (pairwise_sublist t.entries).imp ?_⟩
    -- two entries of one section
    rintro e e' hsub ⟨s₁, d⟩ hp ⟨s₂, d'⟩ hq
    obtain ⟨rfl, rfl⟩ := Prod.mk.inj (place_of_mem_spot hp)
    obtain ⟨rfl, rfl⟩ := Prod.mk.inj (place_of_mem_spot hq)
    exact .inEntries _ _ _ _ _ hsub
  · -- two sections
    rintro s s' hsub ⟨s₁, d⟩ hp ⟨s₂, d'⟩ hq
    obtain ⟨e, -, hp⟩ := List.mem_flatMap.mp hp
    obtain ⟨e', -, hq⟩ := List.mem_flatMap.mp hq
    obtain ⟨rfl, -⟩ := Prod.mk.inj (place_of_mem_spot hp)
    obtain ⟨rfl, -⟩ := Prod.mk.inj (place_of_mem_spot hq)
    exact .inSections _ _ hsub

theorem located_enumerates : Enumerates t document (located t document) :=
  ⟨located_ordered t document, fun _ _ => mem_located_iff_deviates t document⟩

/-- **The issues of a document are the lines of its deviations**: of all there are,
of each once, in the order of the sections, then of the table, then the version
before the path.  Nothing else has a line. -/
theorem issues_enumerate (label : String) :
    ∃ ds : List (Section × Deviation),
      ds.Pairwise (Precedes t) ∧ ds.Nodup ∧ (∀ s d, (s, d) ∈ ds ↔ Deviates t document s d) ∧
      List.Forall₂ (fun p issue => Says label p.2 issue) ds (issues t label document) := by
  have hall := located_enumerates t document
  refine ⟨located t document, hall.ordered, hall.nodup, hall.complete, ?_⟩
  rw [issues_eq, List.forall₂_map_right_iff, List.forall₂_same]
  exact fun p _ => says_line label p.2

/-- A manifest with a value in the place of a version. -/
def versionManifest (value : String) : String :=
  "[dependencies]\nsolana-sdk = \x7b version = " ++ value ++ ", path = \"./solana-sdk\" \x7d\n"

/-- What is shown of a date is not what it is written as, in the manifest and in the
text of the value; within an array it is. -/
theorem date_shown_as_table :
    (ofText (versionManifest "1979-05-27")).map (fun document =>
        (at? document ["dependencies", "solana-sdk", "version"]).map fun v =>
          (v.string?, String.ofList v.text)) = .ok (some (none, "1979-05-27")) ∧
      (ofText (versionManifest "1979-05-27")).map (issues .builtin "Cargo.toml") =
        .ok ["solana-sdk in Cargo.toml: version " ++
          "\x7b \"$__toml_private_datetime\" = \"1979-05-27\" \x7d, expected 1.25.0"] ∧
      (ofText (versionManifest "[1979-05-27]")).map (issues .builtin "Cargo.toml") =
        .ok ["solana-sdk in Cargo.toml: version [1979-05-27], expected 1.25.0"] := by
  refine ⟨?_, ?_, ?_⟩ <;> decide +kernel

-- A quoted key with a dot in it leads to no section.
example : issues .builtin "Cargo.toml"
    (.table [("workspace.dependencies", .table [("solana-sdk", .string "1")])]) = [] := by
  decide

end WorkspaceAudit.Manifest

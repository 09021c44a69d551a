/-
WorkspaceAudit/Proofs/Manifest.lean

What the issues of a manifest are about.

`Declares` says which tables of a document declare dependencies, and
`Complies` which values under the name of an expectation are as expected.
Both are read off the document itself, without the lists of sections and
fields that the check goes through.

Main results: where a value deviates (`mem_deviationsOf_iff`), every issue is
about an expectation of the table and names the manifest
(`exists_of_mem_issues`), and there is none exactly if all that is declared
complies (`issues_eq_nil_iff`).
-/
import WorkspaceAudit.Manifest
import WorkspaceAudit.Proofs.Lookup

namespace WorkspaceAudit.Manifest

/-! ### Documents -/

/-- The tables in which a document declares dependencies. -/
inductive Declares (document : Toml.Value) : List (String × Toml.Value) → Prop
  | direct {key : String} {fs : List (String × Toml.Value)} :
      key ∈ ["dependencies", "dev-dependencies", "build-dependencies"] →
      document.get? key = some (.table fs) → Declares document fs
  | workspace {w : Toml.Value} {fs : List (String × Toml.Value)} :
      document.get? "workspace" = some w → w.get? "dependencies" = some (.table fs) →
      Declares document fs

/-- What may stand under the name of an expectation: the version alone, a table
with the version and the path, or what declares nothing. -/
inductive Complies (e : Expectation) : Toml.Value → Prop
  | version : Complies e (.string e.version)
  | fields {fs : List (String × Toml.Value)} :
      fs.lookup "version" = some (.string e.version) →
      fs.lookup "path" = some (.string e.path) → Complies e (.table fs)
  | other {v : Toml.Value} : v.string? = none → v.fields? = none → Complies e v

theorem fields?_eq_some_iff {v : Toml.Value} {fs : List (String × Toml.Value)} :
    v.fields? = some fs ↔ v = .table fs := by
  cases v <;> simp [Toml.Value.fields?]

theorem string?_eq_some_iff {v : Toml.Value} {s : String} :
    v.string? = some s ↔ v = .string s := by
  cases v <;> simp [Toml.Value.string?]

/-- What stands under a key is as expected exactly if that string stands there. -/
theorem bind_string?_eq_some_iff {found : Option Toml.Value} {s : String} :
    found.bind Toml.Value.string? = some s ↔ found = some (.string s) := by
  rw [Option.bind_eq_some_iff]
  constructor
  · rintro ⟨v, rfl, hs⟩
    rw [string?_eq_some_iff.mp hs]
  · rintro rfl
    exact ⟨_, rfl, rfl⟩

/-- The sections that are checked hold what the document declares. -/
theorem declares_iff {document : Toml.Value} {fs : List (String × Toml.Value)} :
    Declares document fs ↔ ∃ path ∈ sections, at? document path = some (.table fs) := by
  constructor
  · -- each of the three keys is a section, and so is the one in the workspace
    rintro (⟨hkey, hfs⟩ | ⟨hw, hfs⟩)
    · simp only [List.mem_cons, List.not_mem_nil, or_false] at hkey
      rcases hkey with rfl | rfl | rfl
      · exact ⟨["dependencies"], by simp [sections], by simp [at?, hfs]⟩
      · exact ⟨["dev-dependencies"], by simp [sections], by simp [at?, hfs]⟩
      · exact ⟨["build-dependencies"], by simp [sections], by simp [at?, hfs]⟩
    · exact ⟨["workspace", "dependencies"], by simp [sections], by simp [at?, hw, hfs]⟩
  · rintro ⟨path, hpath, hfs⟩
    simp only [sections, List.mem_cons, List.not_mem_nil, or_false] at hpath
    rcases hpath with rfl | rfl | rfl | rfl
    · exact @Declares.direct document "dependencies" fs (by simp) (by simpa [at?] using hfs)
    · exact @Declares.direct document "dev-dependencies" fs (by simp) (by simpa [at?] using hfs)
    · exact @Declares.direct document "build-dependencies" fs (by simp) (by simpa [at?] using hfs)
    · simp only [at?, Option.bind_eq_some_iff] at hfs
      obtain ⟨w, hw, v, hv, hfs⟩ := hfs
      cases hfs
      exact .workspace hw hv

/-! ### Deviations -/

/-- A string deviates in its version, a table in each field that is not as
required, and nothing else deviates. -/
theorem mem_deviationsOf_iff {e : Expectation} {v : Toml.Value} {d : Deviation} :
    d ∈ deviationsOf e v ↔
      (∃ s, v = .string s ∧ s ≠ e.version ∧ d = ⟨e, .version, some (.string s)⟩) ∨
      ∃ gs f, v = .table gs ∧ gs.lookup f.key ≠ some (.string (f.required e)) ∧
        d = ⟨e, f, gs.lookup f.key⟩ := by
  cases v with
  | string s =>
    rw [deviationsOf]
    split
    · next h => simp [h]
    · next h => simp [h]
  | table gs =>
    rw [deviationsOf, List.mem_filterMap]
    constructor
    · rintro ⟨f, -, hf⟩
      dsimp only at hf
      split at hf
      · cases hf
      · next h =>
        cases hf
        exact .inr ⟨gs, f, rfl, fun hs => h (bind_string?_eq_some_iff.mpr hs), rfl⟩
    · rintro (⟨s, ⟨⟩, -⟩ | ⟨gs, f, ⟨⟩, h, rfl⟩)
      exact ⟨f, by cases f <;> simp, if_neg fun hs => h (bind_string?_eq_some_iff.mp hs)⟩
  | _ => simp [deviationsOf]

theorem expectation_of_mem_deviationsOf {e : Expectation} {v : Toml.Value} {d : Deviation}
    (h : d ∈ deviationsOf e v) : d.expectation = e := by
  rcases mem_deviationsOf_iff.mp h with ⟨s, -, -, rfl⟩ | ⟨gs, f, -, -, rfl⟩
  · rfl
  · rfl

/-- Each field deviates at most once, the version first. -/
theorem map_field_deviationsOf_sublist (e : Expectation) (v : Toml.Value) :
    ((deviationsOf e v).map Deviation.field).Sublist [.version, .path] := by
  cases v with
  | string s =>
    rw [deviationsOf]
    split
    · exact List.nil_sublist _
    · exact .cons_cons _ (List.nil_sublist _)
  | table gs =>
    have hfilter : (deviationsOf e (.table gs)).map Deviation.field =
        [Field.version, Field.path].filter fun f =>
          (gs.lookup f.key).bind Toml.Value.string? ≠ some (f.required e) := by
      rw [deviationsOf, List.map_filterMap, ← List.filterMap_eq_filter]
      refine List.filterMap_congr fun f _ => ?_
      by_cases h : (gs.lookup f.key).bind Toml.Value.string? = some (f.required e)
      · simp [h, Option.guard]
      · simp [h, Option.guard]
    rw [hfilter]
    exact List.filter_sublist
  | _ => exact List.nil_sublist _

theorem declared_of_at? {document : Toml.Value} {path : List String}
    {fs : List (String × Toml.Value)} (h : at? document path = some (.table fs)) :
    declared document path = fs := by
  rw [declared, h]
  rfl

theorem lookup_declared_eq (document : Toml.Value) (path : List String) (name : String) :
    (declared document path).lookup name = (at? document path).bind fun v => v.get? name := by
  rw [declared]
  rcases at? document path with - | v
  · rfl
  · rw [Option.bind_some, Option.bind_some, Toml.Value.get?]
    rcases v.fields? with - | fs <;> rfl

/-- A section declares something only if it is a table. -/
theorem at?_of_mem_declared {document : Toml.Value} {path : List String}
    {d : String × Toml.Value} (h : d ∈ declared document path) :
    at? document path = some (.table (declared document path)) := by
  unfold declared at h ⊢
  split at h
  · next fs hfs =>
    obtain ⟨v, hv, hv'⟩ := Option.bind_eq_some_iff.mp hfs
    rw [hv, fields?_eq_some_iff.mp hv']
  · cases h

theorem mem_sectionDeviations_iff {t : Expectations} {fs : List (String × Toml.Value)}
    {d : Deviation} :
    d ∈ sectionDeviations t fs ↔
      ∃ e ∈ t.entries, ∃ v, fs.lookup e.name = some v ∧ d ∈ deviationsOf e v := by
  rw [sectionDeviations, List.mem_flatMap]
  refine exists_congr fun e => and_congr_right fun _ => ?_
  rcases fs.lookup e.name with - | v
  · simp
  · simp

/-- A deviation is one of what is declared for an expectation of the table. -/
theorem mem_deviations_iff {t : Expectations} {document : Toml.Value} {d : Deviation} :
    d ∈ deviations t document ↔
      ∃ fs, Declares document fs ∧ ∃ e ∈ t.entries, ∃ v, fs.lookup e.name = some v ∧
        d ∈ deviationsOf e v := by
  rw [deviations, List.mem_flatMap]
  constructor
  · rintro ⟨path, hpath, hd⟩
    obtain ⟨e, he, v, hv, hd⟩ := mem_sectionDeviations_iff.mp hd
    -- the section declares `v`, so it is a table
    have hmem : (e.name, v) ∈ declared document path := mem_of_lookup hv
    exact ⟨_, declares_iff.mpr ⟨path, hpath, at?_of_mem_declared hmem⟩, e, he, v, hv, hd⟩
  · rintro ⟨fs, hfs, hd⟩
    obtain ⟨path, hpath, hat⟩ := declares_iff.mp hfs
    refine ⟨path, hpath, ?_⟩
    rw [declared_of_at? hat]
    exact mem_sectionDeviations_iff.mpr hd

/-- Nothing deviates in what complies, and only there. -/
theorem deviationsOf_eq_nil_iff {e : Expectation} {v : Toml.Value} :
    deviationsOf e v = [] ↔ Complies e v := by
  rw [List.eq_nil_iff_forall_not_mem]
  constructor
  · intro h
    cases v with
    | string s =>
      have hversion : s = e.version := by
        by_contra hne
        exact h _ (mem_deviationsOf_iff.mpr (.inl ⟨s, rfl, hne, rfl⟩))
      rw [hversion]
      exact .version
    | table gs =>
      have hfield : ∀ f : Field, gs.lookup f.key = some (.string (f.required e)) := by
        intro f
        by_contra hne
        exact h _ (mem_deviationsOf_iff.mpr (.inr ⟨gs, f, rfl, hne, rfl⟩))
      exact .fields (hfield .version) (hfield .path)
    | _ => exact .other rfl rfl
  · intro h d hd
    rcases mem_deviationsOf_iff.mp hd with ⟨s, rfl, hne, -⟩ | ⟨gs, f, rfl, hne, -⟩
    · cases h with
      | version => exact hne rfl
      | other hs => cases hs
    · cases h with
      | fields hversion hpath =>
        cases f with
        | version => exact hne hversion
        | path => exact hne hpath
      | other _ hfields => cases hfields

/-! ### Issues -/

/-- Each issue is about an expectation of the table and names the manifest. -/
theorem exists_of_mem_issues {t : Expectations} {label : String} {document : Toml.Value}
    {issue : Issue} (h : issue ∈ issues t label document) :
    ∃ e ∈ t.entries, ∃ rest, issue = e.name ++ " in " ++ label ++ ": " ++ rest := by
  obtain ⟨d, hd, rfl⟩ := List.mem_map.mp h
  obtain ⟨fs, -, e, he, v, -, hd⟩ := mem_deviations_iff.mp hd
  refine ⟨e, he, d.field.key ++ " " ++ foundText d.found ++ ", expected " ++
    d.field.required d.expectation, ?_⟩
  rw [← expectation_of_mem_deviationsOf hd, Deviation.line]
  simp only [String.append_assoc]

/-- **A manifest has no issues** if all that it declares for expectations of the
table complies. -/
theorem issues_eq_nil_iff {t : Expectations} {label : String} {document : Toml.Value} :
    issues t label document = [] ↔
      ∀ fs, Declares document fs → ∀ e ∈ t.entries, ∀ v, fs.lookup e.name = some v →
        Complies e v := by
  rw [issues, List.map_eq_nil_iff]
  constructor
  · intro h fs hfs e he v hv
    rw [← deviationsOf_eq_nil_iff, List.eq_nil_iff_forall_not_mem]
    intro d hd
    have hmem : d ∈ deviations t document :=
      mem_deviations_iff.mpr ⟨fs, hfs, e, he, v, hv, hd⟩
    rw [h] at hmem
    cases hmem
  · intro h
    rw [List.eq_nil_iff_forall_not_mem]
    intro d hd
    obtain ⟨fs, hfs, e, he, v, hv, hd⟩ := mem_deviations_iff.mp hd
    rw [deviationsOf_eq_nil_iff.mpr (h fs hfs e he v hv)] at hd
    cases hd

end WorkspaceAudit.Manifest

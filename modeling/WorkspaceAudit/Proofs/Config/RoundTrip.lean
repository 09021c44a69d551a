/-
WorkspaceAudit/Proofs/Config/RoundTrip.lean

Configurations that are written and read back.

Any members of a configuration, in any order, are read as that configuration has
them, over the values that hold where nothing is configured (`Config.restrict`).
One member is one step: it adds its field to those that are already read
(`ofField_member`), and a list of members adds all of theirs.  With all of its
members a configuration is read back as it was.

A path is bytes and a text is not, so the paths have to be texts.
-/
import Mathlib.Data.List.Nodup
import Mathlib.Data.List.Perm.Subperm
import WorkspaceAudit.Proofs.Config.Language

namespace WorkspaceAudit.Config

open Json

/-! ### Settings of some fields -/

/-- The settings of these fields; the others have their initial values. -/
def restrict (c : Config) (fields : List String) : Config where
  root := if "root" ∈ fields then c.root else initial.root
  sourceDir := if "source_dir" ∈ fields then c.sourceDir else initial.sourceDir
  sourcePattern := if "source_pattern" ∈ fields then c.sourcePattern else initial.sourcePattern
  manifestName := if "manifest_name" ∈ fields then c.manifestName else initial.manifestName
  reportFile := if "report_file" ∈ fields then c.reportFile else initial.reportFile
  jsonReport := if "json_report" ∈ fields then c.jsonReport else initial.jsonReport
  expectations := if "expectations" ∈ fields then c.expectations else initial.expectations

theorem restrict_nil (c : Config) : c.restrict [] = initial :=
  rfl

theorem restrict_fieldNames (c : Config) : c.restrict fieldNames = c := by
  simp [restrict, fieldNames]

theorem restrict_congr (c : Config) {fields fields' : List String}
    (h : ∀ field, field ∈ fields ↔ field ∈ fields') : c.restrict fields = c.restrict fields' := by
  simp only [restrict, h]

/-! ### Values that are written -/

/-- The paths of a configuration. -/
def paths (c : Config) : List Path :=
  c.root :: c.sourceDir :: c.reportFile :: c.jsonReport.toList

theorem ofText_shown {p : Path} (h : (Bytes.text? p).isSome) : Bytes.ofText p.shown = p := by
  obtain ⟨t, ht⟩ := Option.isSome_iff_exists.mp h
  obtain rfl := Bytes.text?_eq_some_iff.mp ht
  rw [Bytes.shown_ofText]

theorem pathOf?_pathJson {p : Path} (h : (Bytes.text? p).isSome) :
    pathOf? (pathJson p).toDatum = some p :=
  congrArg some (ofText_shown h)

theorem optionalString?_jsonReport {p : Option Path} (h : ∀ q ∈ p, (Bytes.text? q).isSome) :
    ((p.map pathJson).getD .null).toDatum.optionalString?.map (·.map Bytes.ofText) = some p := by
  rcases p with - | q
  · rfl
  · exact congrArg (some ∘ some) (ofText_shown (h q rfl))

theorem written_expectationJson (e : Expectation) : e.Written (expectationJson e).toDatum :=
  .members (.refl e.members)

theorem written_expectationsJson (t : Expectations) : t.Written (expectationsJson t).toDatum := by
  have hentries : ∀ es : List Expectation,
      List.Forall₂ Expectation.Written es (Value.toItems (es.map expectationJson)) := by
    intro es
    induction es with
    | nil => exact .nil
    | cons e es ih => exact .cons (written_expectationJson e) ih
  exact .mk (hentries t.entries)

/-! ### Reading members -/

section Members

variable {c : Config} (hpaths : ∀ p ∈ c.paths, (Bytes.text? p).isSome)
include hpaths

/-- A member adds its field to those that were read. -/
theorem ofField_member {seen : List String} {key : String} {v : Value}
    (hmem : (key, v) ∈ c.members) :
    ofField key (c.restrict seen) v.toDatum = some (c.restrict (key :: seen)) := by
  rcases hmem with _ | ⟨_, _ | ⟨_, _ | ⟨_, _ | ⟨_, _ | ⟨_, _ | ⟨_, _ | ⟨_, hmem⟩⟩⟩⟩⟩⟩⟩
  · have hroot := pathOf?_pathJson (hpaths c.root (by simp [paths]))
    simp [ofField, hroot, restrict]
  · have hdir := pathOf?_pathJson (hpaths c.sourceDir (by simp [paths]))
    simp [ofField, hdir, restrict]
  · simp [ofField, Value.toDatum, Datum.string?, restrict]
  · simp [ofField, Value.toDatum, Datum.string?, restrict]
  · have hfile := pathOf?_pathJson (hpaths c.reportFile (by simp [paths]))
    simp [ofField, hfile, restrict]
  · have hreport := optionalString?_jsonReport (p := c.jsonReport) fun q hq =>
      hpaths q (by simp_all [paths])
    obtain ⟨t, ht, hreport⟩ := Option.map_eq_some_iff.mp hreport
    simp [ofField, ht, hreport, restrict]
  · have htable := Expectations.ofDatum?_eq_some_iff.mpr (written_expectationsJson c.expectations)
    simp [ofField, htable, restrict]
  · cases hmem

/-- Members add their fields to those that were read. -/
theorem ofMembers_members {seen : List String} {ms : List (String × Value)}
    (hms : ∀ m ∈ ms, m ∈ c.members) (hnodup : (ms.map Prod.fst ++ seen).Nodup) :
    form.ofMembers ofField seen (c.restrict seen) (Value.toMembers ms) =
      some (c.restrict (ms.map Prod.fst ++ seen)) := by
  -- the field of each member joins those that were seen
  induction ms generalizing seen with
  | nil => rfl
  | cons m ms ih =>
    obtain ⟨key, v⟩ := m
    rw [List.forall_mem_cons] at hms
    have hperm : (key :: (ms.map Prod.fst ++ seen)).Perm (ms.map Prod.fst ++ key :: seen) :=
      List.perm_middle.symm
    have hfield : key ∈ c.members.map Prod.fst := List.mem_map_of_mem hms.1
    have hnew : key ∉ seen := fun hseen =>
      (List.nodup_cons.mp hnodup).1 (List.mem_append_right _ hseen)
    rw [Value.toMembers, RecordForm.ofMembers, if_pos ⟨hfield, hnew⟩, ofField_member hpaths hms.1,
      Option.bind_some, ih hms.2 (hperm.nodup_iff.mp hnodup)]
    exact congrArg some (c.restrict_congr fun field => hperm.symm.mem_iff)

/-- Any members in any order are read over the initial values. -/
theorem ofDatum?_members {ms : List (String × Value)} (hms : ms.Subperm c.members) :
    ofDatum? (Value.object ms).toDatum = some (c.restrict (ms.map Prod.fst)) := by
  have hnodup : (ms.map Prod.fst).Nodup := by
    obtain ⟨l, hperm, hsub⟩ := hms
    rw [← (hperm.map Prod.fst).nodup_iff]
    exact nodup_fieldNames.sublist (hsub.map Prod.fst)
  have hread : form.ofMembers ofField [] (c.restrict []) (Value.toMembers ms) =
      some (c.restrict (ms.map Prod.fst ++ [])) :=
    ofMembers_members hpaths hms.subset (by rwa [List.append_nil])
  rw [List.append_nil, restrict_nil] at hread
  rw [Value.toDatum, ofDatum?_object, hread]

end Members

/-- **Members are read back over the initial values, in whichever order they stand**
and however they are spelled, and a configuration is read back as it was. -/
theorem ofText_members {c : Config} (hpaths : ∀ p ∈ c.paths, (Bytes.text? p).isSome)
    {ms : List (String × Value)} (hms : ms.Subperm c.members) (origin : Path) :
    (∀ text, Says text (Value.object ms).toDatum →
        ofText text origin = .ok (c.restrict (ms.map Prod.fst))) ∧
      ofText (String.ofList (Value.object ms).compact) origin =
        .ok (c.restrict (ms.map Prod.fst)) ∧
      ofText c.text origin = .ok c := by
  have hread : ∀ text, Says text (Value.object ms).toDatum →
      ofText text origin = .ok (c.restrict (ms.map Prod.fst)) :=
    fun text h => (ofText_eq_ok_iff h).mpr (ofDatum?_members hpaths hms)
  have hall : ofDatum? (Value.object c.members).toDatum = some c := by
    rw [ofDatum?_members hpaths (.refl _)]
    exact congrArg some c.restrict_fieldNames
  exact ⟨hread, hread _ (Value.object ms).says_compact,
    (ofText_eq_ok_iff (Value.object c.members).says_compact).mpr hall⟩

/-- A configuration with quotes, backslashes, control characters, a line separator
and a character beyond sixteen bits. -/
def odd : Config :=
  { initial with
    root := Bytes.ofText "/\"\\\x01\u2028😀"
    sourcePattern := "\"\n\""
    expectations := ⟨[⟨"\x1f", "1", "./a"⟩, ⟨"b", "", "\\"⟩], by decide⟩ }

theorem odd_text_members :
    ofText (String.ofList (Value.object
        [("expectations", expectationsJson odd.expectations), ("json_report", .null),
          ("root", pathJson odd.root)]).compact) [] =
        .ok { initial with root := odd.root, expectations := odd.expectations } ∧
      ofText odd.text [] = .ok odd := by
  have hpaths : ∀ p ∈ odd.paths, (Bytes.text? p).isSome := by
    simp [odd, paths, initial]
  have hms : List.Subperm
      [("expectations", expectationsJson odd.expectations), ("json_report", .null),
        ("root", pathJson odd.root)] odd.members := by
    refine List.subperm_of_subset (List.Nodup.of_map Prod.fst (by decide)) ?_
    simp [members, odd, initial]
  exact (ofText_members hpaths hms []).2

end WorkspaceAudit.Config

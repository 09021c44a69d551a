/-
WorkspaceAudit/Proofs/Config/Language.lean

Which texts are configurations.

`Config.Accepted` says it of values, field by field and without regard to how
they are read: an object whose keys are fields, none of them twice, or a list that
is not longer than the fields, where each value fits its field (`Config.Fits`).

A text is a configuration exactly if it says an accepted value, in whichever of
the two forms; anything else is refused with an error that names where the text
comes from (`Config.ofText_language`).
-/
import WorkspaceAudit.Diagnosis
import WorkspaceAudit.Proofs.Config.Expectations
import WorkspaceAudit.Proofs.Json.Writing

namespace WorkspaceAudit.Config

open Json

/-! ### Accepted values -/

/-- The fields, in the order in which a list gives their values. -/
def fieldNames : List String :=
  ["root", "source_dir", "source_pattern", "manifest_name", "report_file", "json_report",
    "expectations"]

/-- A value fits a field: a text or a path is a string, a path that may be absent
is also null, and a table lists expectations, no name twice. -/
inductive Fits : String → Datum → Prop
  | string {field x : String} :
      field ∈ ["root", "source_dir", "source_pattern", "manifest_name", "report_file"] →
      Fits field (.string x)
  | present {field x : String} : field = "json_report" → Fits field (.string x)
  | absent {field : String} : field = "json_report" → Fits field .null
  | table {field : String} {es : List Expectation} {vs : List Datum} : field = "expectations" →
      List.Forall₂ Expectation.Written es vs → (es.map Expectation.name).Nodup →
      Fits field (.array vs)

/-- A value says a configuration. -/
inductive Accepted : Datum → Prop
  | object {ms : List (String × Datum)} : (∀ m ∈ ms, m.1 ∈ fieldNames ∧ Fits m.1 m.2) →
      (ms.map Prod.fst).Nodup → Accepted (.object ms)
  | array {vs : List Datum} : vs.length ≤ fieldNames.length →
      (∀ m ∈ fieldNames.zip vs, Fits m.1 m.2) → Accepted (.array vs)

/-! ### What is made of a value -/

/-- The path that a value says. -/
def pathOf? (v : Datum) : Option Path :=
  v.string?.map Bytes.ofText

theorem pathReader_readsAs : ReadsAs pathReader pathOf? :=
  (stringValue_readsAs "path string").map Bytes.ofText

/-- What a field makes of a value. -/
def ofField (field : String) (c : Config) (v : Datum) : Option Config :=
  match field with
  | "root" => (pathOf? v).map fun p => { c with root := p }
  | "source_dir" => (pathOf? v).map fun p => { c with sourceDir := p }
  | "source_pattern" => v.string?.map fun t => { c with sourcePattern := t }
  | "manifest_name" => v.string?.map fun t => { c with manifestName := t }
  | "report_file" => (pathOf? v).map fun p => { c with reportFile := p }
  | "json_report" => v.optionalString?.map fun t => { c with jsonReport := t.map Bytes.ofText }
  | _ => (Expectations.ofDatum? v).map fun t => { c with expectations := t }

theorem form_fields : form.fields = fieldNames :=
  rfl

theorem nodup_fieldNames : fieldNames.Nodup := by
  decide

theorem readsFields : form.ReadsFields ofField := by
  intro field hf c
  rcases hf with _ | ⟨_, _ | ⟨_, _ | ⟨_, _ | ⟨_, _ | ⟨_, _ | ⟨_, _ | ⟨_, hf⟩⟩⟩⟩⟩⟩⟩
  · exact pathReader_readsAs.map fun p => { c with root := p }
  · exact pathReader_readsAs.map fun p => { c with sourceDir := p }
  · exact (stringValue_readsAs _).map fun t => { c with sourcePattern := t }
  · exact (stringValue_readsAs _).map fun t => { c with manifestName := t }
  · exact pathReader_readsAs.map fun p => { c with reportFile := p }
  · exact (optionalString_readsAs _).map fun t => { c with jsonReport := t.map Bytes.ofText }
  · exact Expectations.reader_readsAs.map fun t => { c with expectations := t }
  · cases hf

/-- The configuration that a value says. -/
def ofDatum? (v : Datum) : Option Config :=
  form.ofDatum? ofField initial (fun _ c => .ok c) v

theorem reader_readsAs : ReadsAs reader ofDatum? :=
  RecordForm.record_readsAs readsFields initial fun _ c => .ok c

/-! ### Values that fit -/

theorem fits_string_iff {field : String} {v : Datum}
    (h : field ∈ ["root", "source_dir", "source_pattern", "manifest_name", "report_file"]) :
    Fits field v ↔ v.string?.isSome := by
  rw [Datum.string?_isSome_iff]
  constructor
  · intro hv
    cases hv with
    | string => exact ⟨_, rfl⟩
    | present => exact ⟨_, rfl⟩
    | absent heq => subst heq; exact absurd h (by decide)
    | table heq => subst heq; exact absurd h (by decide)
  · rintro ⟨x, rfl⟩
    exact .string h

theorem fits_jsonReport_iff {v : Datum} : Fits "json_report" v ↔ v.optionalString?.isSome := by
  constructor
  · intro hv
    cases hv with
    | table heq => exact absurd heq (by decide)
    | _ => rfl
  · intro h
    cases v with
    | null => exact .absent rfl
    | string x => exact .present rfl
    | _ => cases h

theorem fits_expectations_iff {v : Datum} :
    Fits "expectations" v ↔ (Expectations.ofDatum? v).isSome := by
  rw [Option.isSome_iff_exists]
  simp only [Expectations.ofDatum?_eq_some_iff]
  constructor
  · intro hv
    cases hv with
    | string hf => exact absurd hf (by decide)
    | present heq => exact absurd heq (by decide)
    | absent heq => exact absurd heq (by decide)
    | table _ hes hnodup => exact ⟨⟨_, hnodup⟩, .mk hes⟩
  · rintro ⟨t, ⟨h⟩⟩
    exact .table rfl h t.distinct

/-- A field makes something of the values that fit it. -/
theorem ofField_isSome_iff {field : String} (hf : field ∈ form.fields) (c : Config) (v : Datum) :
    (ofField field c v).isSome ↔ Fits field v := by
  rcases hf with _ | ⟨_, _ | ⟨_, _ | ⟨_, _ | ⟨_, _ | ⟨_, _ | ⟨_, _ | ⟨_, hf⟩⟩⟩⟩⟩⟩⟩
  · rw [fits_string_iff (by decide)]; simp [ofField, pathOf?]
  · rw [fits_string_iff (by decide)]; simp [ofField, pathOf?]
  · rw [fits_string_iff (by decide)]; simp [ofField]
  · rw [fits_string_iff (by decide)]; simp [ofField]
  · rw [fits_string_iff (by decide)]; simp [ofField, pathOf?]
  · rw [fits_jsonReport_iff]; simp [ofField]
  · rw [fits_expectations_iff]; simp [ofField]
  · cases hf

theorem ofDatum?_object (ms : List (String × Datum)) :
    ofDatum? (.object ms) = form.ofMembers ofField [] initial ms := by
  rw [ofDatum?, RecordForm.ofDatum?]
  cases form.ofMembers ofField [] initial ms <;> rfl

theorem ofDatum?_array (vs : List Datum) :
    ofDatum? (.array vs) = (RecordForm.ofValues ofField fieldNames initial vs).map Prod.fst := by
  rw [ofDatum?, RecordForm.ofDatum?, form_fields]
  cases RecordForm.ofValues ofField fieldNames initial vs <;> rfl

/-- Something is made of the accepted values. -/
theorem ofDatum?_isSome_iff {v : Datum} : (ofDatum? v).isSome ↔ Accepted v := by
  cases v with
  | object ms =>
    rw [ofDatum?_object, RecordForm.ofMembers_isSome_iff fun _ => ofField_isSome_iff, form_fields]
    simp only [List.not_mem_nil, not_false_eq_true, true_and]
    exact ⟨fun h => .object h.1 h.2, fun | .object hfits hnodup => ⟨hfits, hnodup⟩⟩
  | array vs =>
    rw [ofDatum?_array, Option.isSome_map]
    refine (RecordForm.ofValues_isSome_iff (fun _ => ofField_isSome_iff) fun _ hf => hf).trans ?_
    exact ⟨fun h => .array h.1 h.2, fun | .array hlength hfits => ⟨hlength, hfits⟩⟩
  | _ => exact ⟨nofun, nofun⟩

/-- Values in the order of the fields say what they say by name. -/
theorem ofDatum?_zip {vs : List Datum} (h : vs.length ≤ fieldNames.length) :
    ofDatum? (.object (fieldNames.zip vs)) = ofDatum? (.array vs) := by
  rw [ofDatum?_object, ofDatum?_array]
  exact RecordForm.ofMembers_zip (fun _ hf => hf) nodup_fieldNames (fun _ _ => List.not_mem_nil) h

/-! ### Texts -/

theorem ofText_eq_ok_iff {text : String} {origin : Path} {c : Config} {v : Datum}
    (h : Says text v) : ofText text origin = .ok c ↔ ofDatum? v = some c := by
  rw [ofText, ofJson, mapError_eq_ok_iff, mapError_eq_ok_iff, whole_eq_ok_iff reader_readsAs h]

theorem says_of_ofText {text : String} {origin : Path} {c : Config}
    (h : ofText text origin = .ok c) : ∃ v, Says text v ∧ Accepted v := by
  rw [ofText, ofJson, mapError_eq_ok_iff, mapError_eq_ok_iff] at h
  obtain ⟨v, hv, hc⟩ := says_of_whole reader_readsAs h
  exact ⟨v, hv, ofDatum?_isSome_iff.mp (hc ▸ rfl)⟩

theorem ofText_error {text : String} {origin : Path} {e : AuditError}
    (h : ofText text origin = .error e) : ∃ reason, e = .configMalformed origin reason := by
  rw [ofText] at h
  cases hjson : ofJson text with
  | ok c =>
    rw [hjson] at h
    cases h
  | error reason =>
    rw [hjson] at h
    cases h
    exact ⟨reason, rfl⟩

/-- **Exactly the accepted values are configurations**: a text that says a value is
one if the value is accepted; a list says what the object with the same values by
name says; whatever is refused is refused with an error that names its origin, and
so is what says no value at all. -/
theorem ofText_language (text : String) (origin : Path) :
    (∀ v, Says text v → ((∃ c, ofText text origin = .ok c) ↔ Accepted v)) ∧
      (∀ vs c named, Says text (.array vs) → Says named (.object (fieldNames.zip vs)) →
        ofText text origin = .ok c → ofText named origin = .ok c) ∧
      (∀ e, ofText text origin = .error e → ∃ reason, e = .configMalformed origin reason) ∧
      ((∀ v, ¬ Says text v) →
        ∃ reason, ofText text origin = .error (.configMalformed origin reason)) := by
  refine ⟨?said, ?named, fun _ => ofText_error, ?unsaid⟩
  case said =>
    intro v hv
    simp only [ofText_eq_ok_iff hv]
    rw [← Option.isSome_iff_exists, ofDatum?_isSome_iff]
  case named =>
    intro vs c named hvs hnamed hc
    rw [ofText_eq_ok_iff hvs] at hc
    have hvs' : Accepted (.array vs) := ofDatum?_isSome_iff.mp (hc ▸ rfl)
    cases hvs' with
    | array hlength =>
      rw [ofText_eq_ok_iff hnamed, ofDatum?_zip hlength]
      exact hc
  case unsaid =>
    intro hnone
    cases h : ofText text origin with
    | ok c =>
      obtain ⟨v, hv, -⟩ := says_of_ofText h
      exact absurd hv (hnone v)
    | error e =>
      obtain ⟨reason, rfl⟩ := ofText_error h
      exact ⟨reason, rfl⟩

/-- A list with a root, the object with that root, and a list and a text that are
refused. -/
theorem small_text_language :
    (∃ c, ofText "[\"/w\"]" [] = .ok c ∧ ofText "\x7b\"root\":\"/w\"\x7d" [] = .ok c) ∧
      (¬ ∃ c, ofText "[null]" [] = .ok c) ∧
      ∃ reason, ofText "" [] = .error (.configMalformed [] reason) := by
  have hlist : Says "[\"/w\"]" (.array [.string "/w"]) := (Value.array [.string "/w"]).says_compact
  have hobject : Says "\x7b\"root\":\"/w\"\x7d" (.object [("root", .string "/w")]) :=
    (Value.object [("root", .string "/w")]).says_compact
  have hnull : Says "[null]" (.array [.null]) := (Value.array [.null]).says_compact
  have haccepted : Accepted (.array [.string "/w"]) := by
    refine .array (by decide) ?_
    intro m hm
    obtain rfl := List.mem_singleton.mp hm
    exact .string (by decide)
  refine ⟨?_, ?_, ?_⟩
  · obtain ⟨hsaid, hnamed, -, -⟩ := ofText_language "[\"/w\"]" []
    obtain ⟨c, hc⟩ := (hsaid _ hlist).mpr haccepted
    exact ⟨c, hc, hnamed _ c _ hlist hobject hc⟩
  · intro hc
    have hrefused := ((ofText_language "[null]" []).1 _ hnull).mp hc
    cases hrefused with
    | array _ hfits =>
      have hfit : Fits "root" .null := hfits ("root", .null) List.mem_cons_self
      cases hfit with
      | absent heq => exact absurd heq (by decide)
  · refine (ofText_language "" []).2.2.2 ?_
    rintro v ⟨s, r, hblank, hv, -⟩
    cases hblank with
    | nil =>
      obtain ⟨c, t, hs, -⟩ := hv.opens
      cases hs

end WorkspaceAudit.Config

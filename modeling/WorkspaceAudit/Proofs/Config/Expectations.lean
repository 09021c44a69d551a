/-
WorkspaceAudit/Proofs/Config/Expectations.lean

How a table of expectations is written.

An expectation is written as the list of its name, version and path, or as an
object with these three members in any order; a table as the list of its entries,
each in either form.  A table is read from what is so written and from nothing
else (`Expectations.ofDatum?_eq_some_iff`).

For the object form, `PartialExpectation.parts` are the members that were read so
far: each member adds itself to them, whatever their order, so that the members
of an object are those of what was read of it.
-/
import Mathlib.Data.List.Forall2
import WorkspaceAudit.Config.Reader
import WorkspaceAudit.Proofs.Json.Members

namespace WorkspaceAudit

open Json

/-! ### How expectations are written -/

/-- An expectation as members of an object. -/
def Expectation.members (e : Expectation) : List (String × Datum) :=
  [("name", .string e.name), ("version", .string e.version), ("path", .string e.path)]

/-- An expectation is written as the list of its parts, or as an object with each
of them once, in any order. -/
inductive Expectation.Written (e : Expectation) : Datum → Prop
  | values : Written e (.array [.string e.name, .string e.version, .string e.path])
  | members {ms : List (String × Datum)} : ms.Perm e.members → Written e (.object ms)

/-- A table is written as the list of its entries. -/
inductive Expectations.Written (t : Expectations) : Datum → Prop
  | mk {vs : List Datum} : List.Forall₂ Expectation.Written t.entries vs → Written t (.array vs)

/-! ### What is read of an expectation -/

namespace PartialExpectation

/-- With a part that was read. -/
def put (e : PartialExpectation) (field t : String) : PartialExpectation :=
  match field with
  | "name" => { e with name := t }
  | "version" => { e with version := t }
  | _ => { e with path := t }

theorem form_read (field : String) (e : PartialExpectation) :
    form.read field e = fun s => do
      let (t, r) ← stringValue "a string" s
      return (e.put field t, r) := by
  funext s
  refine congrArg _ (funext fun x => ?_)
  dsimp only
  unfold put
  split <;> simp [*]

/-- What a field makes of a value. -/
def ofField (field : String) (e : PartialExpectation) (v : Datum) : Option PartialExpectation :=
  v.string?.map (e.put field)

theorem readsFields : form.ReadsFields ofField := by
  intro field _ e
  rw [form_read]
  exact (stringValue_readsAs "a string").map (e.put field)

theorem ofField_isSome_iff (field : String) (e : PartialExpectation) (v : Datum) :
    (ofField field e v).isSome ↔ ∃ x, v = .string x := by
  rw [ofField, Option.isSome_map, Datum.string?_isSome_iff]

theorem ofField_eq_some_iff {field : String} {e e' : PartialExpectation} {v : Datum} :
    ofField field e v = some e' ↔ ∃ x, v = .string x ∧ e.put field x = e' := by
  simp only [ofField, Option.map_eq_some_iff, Datum.string?_eq_some_iff]

/-! ### Members in any order -/

/-- What was read so far, as members. -/
def parts (e : PartialExpectation) : List (String × Datum) :=
  (e.name.map fun t => ("name", Datum.string t)).toList ++
    ((e.version.map fun t => ("version", Datum.string t)).toList ++
      (e.path.map fun t => ("path", Datum.string t)).toList)

theorem name_mem_parts {e : PartialExpectation} {t : String} :
    ("name", Datum.string t) ∈ e.parts ↔ e.name = some t := by
  simp [parts]

theorem version_mem_parts {e : PartialExpectation} {t : String} :
    ("version", Datum.string t) ∈ e.parts ↔ e.version = some t := by
  simp [parts]

theorem path_mem_parts {e : PartialExpectation} {t : String} :
    ("path", Datum.string t) ∈ e.parts ↔ e.path = some t := by
  simp [parts]

/-- What was read is told by its parts. -/
theorem eq_of_parts_perm {e e' : PartialExpectation} (h : e.parts.Perm e'.parts) : e = e' := by
  obtain ⟨name, version, path⟩ := e
  obtain ⟨name', version', path'⟩ := e'
  congr
  · exact Option.ext fun t => name_mem_parts.symm.trans (h.mem_iff.trans name_mem_parts)
  · exact Option.ext fun t => version_mem_parts.symm.trans (h.mem_iff.trans version_mem_parts)
  · exact Option.ext fun t => path_mem_parts.symm.trans (h.mem_iff.trans path_mem_parts)

/-- A part that was not there is added. -/
theorem parts_put {e : PartialExpectation} {field t : String} (hf : field ∈ form.fields)
    (hnew : ∀ x ∈ e.parts, x.1 ≠ field) :
    (e.put field t).parts.Perm ((field, .string t) :: e.parts) := by
  obtain ⟨name, version, path⟩ := e
  rcases hf with _ | ⟨_, _ | ⟨_, _ | ⟨_, hf⟩⟩⟩
  · have hnone : name = none := by
      rw [Option.eq_none_iff_forall_ne_some]
      exact fun t ht => hnew _ (name_mem_parts.mpr ht) rfl
    subst hnone
    exact .refl _
  · have hnone : version = none := by
      rw [Option.eq_none_iff_forall_ne_some]
      exact fun t ht => hnew _ (version_mem_parts.mpr ht) rfl
    subst hnone
    exact List.perm_middle
  · have hnone : path = none := by
      rw [Option.eq_none_iff_forall_ne_some]
      exact fun t ht => hnew _ (path_mem_parts.mpr ht) rfl
    subst hnone
    rw [parts, parts, ← List.append_assoc, ← List.append_assoc]
    exact List.perm_middle
  · cases hf

/-- What was read has the parts it had before and the members since. -/
theorem parts_of_ofMembers {seen : List String} {e e' : PartialExpectation}
    {ms : List (String × Datum)} (hseen : ∀ x ∈ e.parts, x.1 ∈ seen)
    (h : form.ofMembers ofField seen e ms = some e') : e'.parts.Perm (e.parts ++ ms) := by
  -- a key that was not seen is no key of a part, so each member adds one
  induction ms generalizing seen e with
  | nil =>
    cases h
    rw [List.append_nil]
  | cons m ms ih =>
    obtain ⟨key, v⟩ := m
    rw [RecordForm.ofMembers] at h
    split at h
    · next hkey =>
      obtain ⟨e₁, he₁, h⟩ := Option.bind_eq_some_iff.mp h
      obtain ⟨t, rfl, rfl⟩ := ofField_eq_some_iff.mp he₁
      have hput : (e.put key t).parts.Perm ((key, .string t) :: e.parts) :=
        parts_put hkey.1 fun x hx heq => hkey.2 (heq ▸ hseen x hx)
      refine (ih ?_ h).trans ((hput.append_right ms).trans List.perm_middle.symm)
      intro x hx
      rcases List.mem_cons.mp (hput.mem_iff.mp hx) with rfl | hx
      · exact List.mem_cons_self
      · exact List.mem_cons_of_mem _ (hseen x hx)
    · cases h

/-! ### Complete expectations -/

/-- All parts of an expectation. -/
def ofExpectation (e : Expectation) : PartialExpectation :=
  ⟨some e.name, some e.version, some e.path⟩

theorem complete_eq_ok_iff {length : Option Nat} {p : PartialExpectation} {e : Expectation} :
    complete length p = .ok e ↔ p = ofExpectation e := by
  obtain ⟨name, version, path⟩ := p
  obtain ⟨n, w, q⟩ := e
  rcases name with - | name <;> rcases version with - | version <;> rcases path with - | path <;>
    rcases length with - | length <;> simp [complete, ofExpectation]

/-- Members make a complete expectation exactly if they are its parts. -/
theorem ofMembers_eq_some_iff {ms : List (String × Datum)} {e : Expectation} :
    form.ofMembers ofField [] ⟨none, none, none⟩ ms = some (ofExpectation e) ↔
      ms.Perm e.members := by
  constructor
  · exact fun h => (parts_of_ofMembers (e := ⟨none, none, none⟩) nofun h).symm
  · intro h
    -- something is read of the parts in any order, and it has these parts
    have hsome : (form.ofMembers ofField [] ⟨none, none, none⟩ ms).isSome := by
      rw [RecordForm.ofMembers_isSome_iff fun field _ => ofField_isSome_iff field]
      constructor
      · intro x hx
        have hparts : ∀ x ∈ e.members, x.1 ∈ form.fields ∧ ∃ t, x.2 = .string t := by
          simp [Expectation.members, form]
        obtain ⟨hf, hstring⟩ := hparts x (h.mem_iff.mp hx)
        exact ⟨hf, List.not_mem_nil, hstring⟩
      · rw [(h.map Prod.fst).nodup_iff]
        exact (by decide : ["name", "version", "path"].Nodup)
    obtain ⟨p, hp⟩ := Option.isSome_iff_exists.mp hsome
    have hparts : p.parts.Perm ms := parts_of_ofMembers (e := ⟨none, none, none⟩) nofun hp
    have heq : p = ofExpectation e := eq_of_parts_perm (hparts.trans h)
    rw [hp, heq]

theorem ofValues_cons {field : String} {fields : List String}
    {p : PartialExpectation} {v : Datum} {vs : List Datum} {x : PartialExpectation × Nat}
    (h : RecordForm.ofValues ofField (field :: fields) p (v :: vs) = some x) :
    ∃ t, v = .string t ∧ RecordForm.ofValues ofField fields (p.put field t) vs = some x := by
  obtain ⟨q, hq, h⟩ := Option.bind_eq_some_iff.mp h
  obtain ⟨t, rfl, rfl⟩ := ofField_eq_some_iff.mp hq
  exact ⟨t, rfl, h⟩

theorem eq_of_ofValues {vs : List Datum} {e : Expectation} {left : Nat}
    (h : RecordForm.ofValues ofField form.fields ⟨none, none, none⟩ vs =
      some (ofExpectation e, left)) :
    vs = [.string e.name, .string e.version, .string e.path] := by
  -- with fewer values a part is absent, and for a fourth there is no field
  rcases vs with - | ⟨v, vs⟩
  · cases h
  obtain ⟨n, rfl, h₁⟩ := ofValues_cons h
  rcases vs with - | ⟨v, vs⟩
  · cases h₁
  obtain ⟨w, rfl, h₂⟩ := ofValues_cons h₁
  rcases vs with - | ⟨v, vs⟩
  · cases h₂
  obtain ⟨q, rfl, h₃⟩ := ofValues_cons h₂
  rcases vs with - | ⟨v, vs⟩
  · cases h₃
    rfl
  · cases h₃

end PartialExpectation

/-- What is made of a value. -/
def Expectation.ofDatum? (v : Datum) : Option Expectation :=
  PartialExpectation.form.ofDatum? PartialExpectation.ofField ⟨none, none, none⟩
    PartialExpectation.complete v

theorem Expectation.reader_readsAs : ReadsAs Expectation.reader Expectation.ofDatum? :=
  RecordForm.record_readsAs PartialExpectation.readsFields ⟨none, none, none⟩
    PartialExpectation.complete

open PartialExpectation in
/-- An expectation is made of what it is written as. -/
theorem Expectation.ofDatum?_eq_some_iff {v : Datum} {e : Expectation} :
    Expectation.ofDatum? v = some e ↔ e.Written v := by
  constructor
  · intro h
    cases v with
    | object ms =>
      obtain ⟨p, hp, hcomplete⟩ := Option.bind_eq_some_iff.mp h
      rw [toOption_eq_some_iff, complete_eq_ok_iff] at hcomplete
      subst hcomplete
      exact .members (ofMembers_eq_some_iff.mp hp)
    | array vs =>
      obtain ⟨⟨p, left⟩, hp, hcomplete⟩ := Option.bind_eq_some_iff.mp h
      rw [toOption_eq_some_iff, complete_eq_ok_iff] at hcomplete
      subst hcomplete
      obtain rfl := eq_of_ofValues hp
      exact .values
    | _ => cases h
  · rintro (_ | h)
    · rfl
    · show Option.bind _ _ = _
      rw [ofMembers_eq_some_iff.mpr h]
      rfl

/-! ### Tables -/

/-- What is made of a value. -/
def Expectations.ofDatum? : Datum → Option Expectations
  | .array vs => (vs.mapM Expectation.ofDatum?).bind fun es => (Expectations.ofEntries? es).toOption
  | _ => none

theorem Expectations.reader_readsAs : ReadsAs Expectations.reader Expectations.ofDatum? := by
  constructor
  · intro s s' r v hb hv
    obtain ⟨c, t, rfl, hc⟩ := hv.opens
    rw [Expectations.reader, hb.dropSpace_cons hc.not_isSpace]
    split
    · next h => cases h
    · next t' h =>
      cases h
      obtain ⟨vs, rfl⟩ := hc.eq_array
      obtain ⟨t, ht, hvs⟩ := hv.of_array
      cases ht
      refine (items_complete Expectation.reader_readsAs hvs).bind fun es => ?_
      dsimp only
      rcases Expectations.ofEntries? es with n | t
      · exact .error _
      · exact .ok t
    · next hbracket =>
      have hnone : Expectations.ofDatum? v = none := by
        cases v with
        | array vs => exact absurd (congrArg (· :: t) hc) (hbracket t)
        | _ => rfl
      rw [hnone]
      exact answers_mistyped _ _ _
  · intro s r a h
    rw [Expectations.reader] at h
    have hb := blank_dropSpace s
    split at h
    · cases h
    · next t ht =>
      rw [ht] at hb
      obtain ⟨⟨es, r'⟩, hitems, h⟩ := bind_eq_ok h
      obtain ⟨vs, hvs, hes⟩ := items_sound Expectation.reader_readsAs hitems
      dsimp only at h
      split at h
      · next t' ht' =>
        cases h
        refine ⟨_, .array vs, hb, .array hvs, ?_⟩
        rw [Expectations.ofDatum?, hes, Option.bind_some, ht']
        rfl
      · cases h
    · obtain ⟨f, hf⟩ := mistyped_error (α := Expectations) "a sequence" (dropSpace s)
      rw [hf] at h
      cases h

theorem Expectations.mapM_eq_some_iff {es : List Expectation} {vs : List Datum} :
    vs.mapM Expectation.ofDatum? = some es ↔ List.Forall₂ Expectation.Written es vs := by
  induction vs generalizing es with
  | nil => simp [eq_comm]
  | cons v vs ih =>
    rw [List.mapM_cons, List.forall₂_cons_right_iff]
    simp [Option.bind_eq_some_iff, Expectation.ofDatum?_eq_some_iff, ih, @eq_comm _ es]

/-- **A table is read from what it is written as**, and from nothing else. -/
theorem Expectations.ofDatum?_eq_some_iff {v : Datum} {t : Expectations} :
    Expectations.ofDatum? v = some t ↔ t.Written v := by
  constructor
  · intro h
    cases v with
    | array vs =>
      obtain ⟨es, hes, h⟩ := Option.bind_eq_some_iff.mp h
      rw [toOption_eq_some_iff, Expectations.ofEntries?_eq_ok_iff] at h
      subst h
      exact .mk (mapM_eq_some_iff.mp hes)
    | _ => cases h
  · rintro ⟨h⟩
    rw [Expectations.ofDatum?, mapM_eq_some_iff.mpr h, Option.bind_some, toOption_eq_some_iff,
      Expectations.ofEntries?_eq_ok_iff]

end WorkspaceAudit

/-
WorkspaceAudit/Proofs/Json/Members.lean

Which objects and which lists a form accepts.

Where each field says by itself which values fit it, whatever was read before, an
object is accepted if its keys are fields, none of them twice, and each value
fits its key; a list is accepted if it is not longer than the fields and each
value fits its field.  A list is then read as the object that gives its values by
name.
-/
import WorkspaceAudit.Proofs.Json.Records

namespace WorkspaceAudit.Json

namespace RecordForm

variable {σ : Type} {form : RecordForm σ} {m : String → σ → Datum → Option σ}

/-- Members are read one part after the other. -/
theorem ofMembers_append {seen : List String} {record : σ} {ms ms' : List (String × Datum)} :
    form.ofMembers m seen record (ms ++ ms') =
      (form.ofMembers m seen record ms).bind fun record =>
        form.ofMembers m ((ms.map Prod.fst).reverse ++ seen) record ms' := by
  induction ms generalizing seen record with
  | nil => rfl
  | cons e ms ih =>
    obtain ⟨key, v⟩ := e
    rw [List.cons_append, ofMembers, ofMembers]
    split
    · rcases m key record v with - | record₁
      · rfl
      · simp [ih]
    · rfl

section Fits

variable {Fits : String → Datum → Prop}
  (h : ∀ field ∈ form.fields, ∀ record v, (m field record v).isSome ↔ Fits field v)
include h

/-- Members are accepted if their keys are fields, each new, and their values fit. -/
theorem ofMembers_isSome_iff {seen : List String} {record : σ} {ms : List (String × Datum)} :
    (form.ofMembers m seen record ms).isSome ↔
      (∀ e ∈ ms, e.1 ∈ form.fields ∧ e.1 ∉ seen ∧ Fits e.1 e.2) ∧ (ms.map Prod.fst).Nodup := by
  induction ms generalizing seen record with
  | nil => simp [ofMembers]
  | cons e ms ih =>
    obtain ⟨key, v⟩ := e
    rw [ofMembers, List.forall_mem_cons, List.map_cons, List.nodup_cons]
    by_cases hkey : key ∈ form.fields ∧ key ∉ seen
    · rw [if_pos hkey]
      have hv := h key hkey.1 record v
      rcases hread : m key record v with - | record₁
      · rw [hread] at hv
        have hunfit : ¬ Fits key v := fun hfits => absurd (hv.mpr hfits) (by simp)
        simp [hunfit]
      · rw [hread] at hv
        rw [Option.bind_some, ih]
        -- a key that stands before is not the first one either
        have hfits : Fits key v := hv.mp rfl
        have hfirst : (∀ e ∈ ms, e.1 ∉ key :: seen) ↔
            key ∉ ms.map Prod.fst ∧ ∀ e ∈ ms, e.1 ∉ seen := by
          simp only [List.mem_cons, not_or, List.mem_map, not_exists, not_and]
          exact ⟨fun hall => ⟨fun e he => (hall e he).1, fun e he => (hall e he).2⟩,
            fun hall e he => ⟨hall.1 e he, hall.2 e he⟩⟩
        constructor
        · rintro ⟨hall, hnodup⟩
          obtain ⟨hnew, hseen⟩ := hfirst.mp fun e he => (hall e he).2.1
          exact ⟨⟨⟨hkey.1, hkey.2, hfits⟩,
            fun e he => ⟨(hall e he).1, hseen e he, (hall e he).2.2⟩⟩, hnew, hnodup⟩
        · rintro ⟨⟨-, hall⟩, hnew, hnodup⟩
          have hseen := hfirst.mpr ⟨hnew, fun e he => (hall e he).2.1⟩
          exact ⟨fun e he => ⟨(hall e he).1, hseen e he, (hall e he).2.2⟩, hnodup⟩
    · rw [if_neg hkey]
      simp only [Option.isSome_none, Bool.false_eq_true, false_iff]
      rintro ⟨⟨⟨hf, hseen, -⟩, -⟩, -⟩
      exact hkey ⟨hf, hseen⟩

/-- Values are accepted if there are fields for all of them and they fit those. -/
theorem ofValues_isSome_iff {fields : List String} (hfields : ∀ field ∈ fields, field ∈ form.fields)
    {record : σ} {vs : List Datum} :
    (ofValues m fields record vs).isSome ↔
      vs.length ≤ fields.length ∧ ∀ e ∈ fields.zip vs, Fits e.1 e.2 := by
  induction fields generalizing record vs with
  | nil => cases vs <;> simp [ofValues]
  | cons field fields ih =>
    rcases vs with - | ⟨v, vs⟩
    · simp [ofValues]
    rw [ofValues, List.zip_cons_cons, List.forall_mem_cons, List.length_cons, List.length_cons,
      Nat.add_le_add_iff_right]
    have hv := h field (hfields field List.mem_cons_self) record v
    rcases hread : m field record v with - | record₁
    · rw [hread] at hv
      have hunfit : ¬ Fits field v := fun hfits => absurd (hv.mpr hfits) (by simp)
      simp [hunfit]
    · rw [hread] at hv
      have hfits : Fits field v := hv.mp rfl
      refine Iff.trans (ih fun f hf => hfields f (List.mem_cons_of_mem _ hf)) ?_
      simp [hfits]

end Fits

/-- Values in the order of the fields are read as members with their names. -/
theorem ofMembers_zip {fields : List String} (hfields : ∀ field ∈ fields, field ∈ form.fields)
    (hnodup : fields.Nodup) {seen : List String} (hseen : ∀ field ∈ fields, field ∉ seen)
    {record : σ} {vs : List Datum} (hlength : vs.length ≤ fields.length) :
    form.ofMembers m seen record (fields.zip vs) = (ofValues m fields record vs).map Prod.fst := by
  induction fields generalizing seen record vs with
  | nil =>
    obtain rfl := List.length_eq_zero_iff.mp (Nat.le_zero.mp hlength)
    rfl
  | cons field fields ih =>
    rcases vs with - | ⟨v, vs⟩
    · rfl
    rw [List.forall_mem_cons] at hfields hseen
    rw [List.nodup_cons] at hnodup
    rw [List.zip_cons_cons, ofMembers, if_pos ⟨hfields.1, hseen.1⟩, ofValues, Option.map_bind]
    refine congrArg _ (funext fun record₁ => ?_)
    refine ih hfields.2 hnodup.2 ?_ (Nat.le_of_succ_le_succ hlength)
    intro f hf
    rw [List.mem_cons, not_or]
    exact ⟨fun heq => hnodup.1 (heq ▸ hf), hseen.2 f hf⟩

end RecordForm

end WorkspaceAudit.Json

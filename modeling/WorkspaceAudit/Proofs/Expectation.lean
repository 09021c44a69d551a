/-
WorkspaceAudit/Proofs/Expectation.lean

What a table of expectations is, and what is wrong with a list that is none.

A list is refused for the first entry whose name stands before it
(`Expectations.ofEntries?_eq_error_iff`): the entries before that one have names of
their own, so no earlier place would do.  In a table each name asks for one entry at
most (`Expectations.get?_eq_some_iff`).
-/
import Mathlib.Data.List.Nodup
import WorkspaceAudit.Expectation
import WorkspaceAudit.Proofs.Lookup

namespace WorkspaceAudit.Expectations

/-! ### Lists that are refused -/

/-- The name that is found stands in `seen` or before itself, and no name before it
does. -/
theorem firstRepeated_eq_some_iff {seen ns : List String} {n : String} :
    firstRepeated seen ns = some n ↔
      ∃ before after, ns = before ++ n :: after ∧ (n ∈ seen ∨ n ∈ before) ∧ before.Nodup ∧
        ∀ m ∈ before, m ∉ seen := by
  induction ns generalizing seen with
  | nil => simp [firstRepeated]
  | cons k ns ih =>
    rw [firstRepeated]
    split
    · next hk =>
      constructor
      · intro h
        cases h
        exact ⟨[], ns, rfl, .inl hk, .nil, List.forall_mem_nil _⟩
      · rintro ⟨before, after, heq, -, -, hbefore⟩
        cases before with
        | nil => rw [(List.cons.inj heq).1]
        | cons m before =>
          rw [(List.cons.inj heq).1] at hk
          exact absurd hk (hbefore m List.mem_cons_self)
    · next hk =>
      rw [ih]
      constructor
      · rintro ⟨before, after, rfl, hn, hnodup, hbefore⟩
        simp only [List.mem_cons, not_or] at hn hbefore
        refine ⟨k :: before, after, rfl, ?_, List.nodup_cons.mpr ⟨?_, hnodup⟩, ?_⟩
        · rw [List.mem_cons]
          tauto
        · exact fun hmem => (hbefore k hmem).1 rfl
        · exact List.forall_mem_cons.mpr ⟨hk, fun m hm => (hbefore m hm).2⟩
      · rintro ⟨before, after, heq, hn, hnodup, hbefore⟩
        cases before with
        | nil =>
          obtain ⟨rfl, rfl⟩ := List.cons.inj heq
          exact absurd hn (by simp [hk])
        | cons m before =>
          obtain ⟨rfl, rfl⟩ := List.cons.inj heq
          rw [List.nodup_cons] at hnodup
          rw [List.forall_mem_cons] at hbefore
          refine ⟨before, after, rfl, ?_, hnodup.2, fun m hm => ?_⟩
          · rw [List.mem_cons] at hn ⊢
            tauto
          · rw [List.mem_cons, not_or]
            exact ⟨fun heq => hnodup.1 (heq ▸ hm), hbefore.2 m hm⟩

/-- A list is refused for the first entry whose name stands before it. -/
theorem ofEntries?_eq_error_iff {entries : List Expectation} {n : String} :
    ofEntries? entries = .error n ↔
      ∃ before e after, entries = before ++ e :: after ∧ e.name = n ∧
        (∃ e' ∈ before, e'.name = n) ∧ (before.map Expectation.name).Nodup := by
  have hrefused : ofEntries? entries = .error n ↔
      firstRepeated [] (entries.map Expectation.name) = some n := by
    unfold ofEntries?
    split
    · next m hm => rw [hm, Except.error.injEq, Option.some.injEq]
    · next hnone => simp [hnone]
  rw [hrefused, firstRepeated_eq_some_iff]
  constructor
  · rintro ⟨names, names', heq, hn, hnodup, -⟩
    obtain ⟨before, rest, rfl, rfl, hrest⟩ := List.map_eq_append_iff.mp heq
    obtain ⟨e, after, rfl, rfl, rfl⟩ := List.map_eq_cons_iff.mp hrest
    have hbefore : e.name ∈ before.map Expectation.name := by simpa using hn
    exact ⟨before, e, after, rfl, rfl, List.mem_map.mp hbefore, hnodup⟩
  · rintro ⟨before, e, after, rfl, rfl, hbefore, hnodup⟩
    refine ⟨before.map Expectation.name, after.map Expectation.name, ?_, ?_, hnodup, by simp⟩
    · rw [List.map_append, List.map_cons]
    · exact .inr (List.mem_map.mpr hbefore)

/-- A list is a table exactly if its names are distinct. -/
theorem exists_ofEntries?_iff {entries : List Expectation} :
    (∃ t, ofEntries? entries = .ok t) ↔ (entries.map Expectation.name).Nodup := by
  simp only [ofEntries?_eq_ok_iff]
  constructor
  · rintro ⟨t, rfl⟩
    exact t.distinct
  · exact fun h => ⟨⟨entries, h⟩, rfl⟩

/-! ### Asking a table -/

/-- The entry of a name is the one that has it. -/
theorem get?_eq_some_iff {t : Expectations} {n : String} {e : Expectation} :
    t.get? n = some e ↔ e ∈ t.entries ∧ e.name = n :=
  find?_eq_some_iff_of_nodup t.distinct

theorem get?_eq_none_iff {t : Expectations} {n : String} :
    t.get? n = none ↔ ∀ e ∈ t.entries, e.name ≠ n := by
  rw [get?, List.find?_eq_none]
  simp

end WorkspaceAudit.Expectations

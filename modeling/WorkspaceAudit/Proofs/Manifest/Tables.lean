/-
WorkspaceAudit/Proofs/Manifest/Tables.lean

The issues of one manifest under two tables.

The check goes through the sections and within each through the table, so an entry
of the table has its lines in up to four parts of the report, between those of the
other entries.  What is found for an entry does not depend on the others, however:

* a table in another order finds the same in another order (`located_perm`);
* without some of its entries a table finds the same without what is about them
  (`located_filter`), whether they stand at its start, at its end or between
  others.
-/
import Mathlib.Data.List.Perm.Basic
import WorkspaceAudit.Proofs.Manifest.Deviations

namespace WorkspaceAudit.Manifest

/-- What is left of a list in which nothing stands twice is told by its members. -/
theorem filter_mem_of_sublist {α : Type} [DecidableEq α] {as bs : List α} (h : bs.Sublist as)
    (hnodup : as.Nodup) : as.filter (fun a => a ∈ bs) = bs := by
  induction h with
  | slnil => rfl
  | @cons bs as a h ih =>
    obtain ⟨ha, hnodup⟩ := List.nodup_cons.mp hnodup
    have hout : a ∉ bs := fun hmem => ha (h.subset hmem)
    rw [List.filter_cons_of_neg (by simpa using hout)]
    exact ih hnodup
  | @cons_cons bs as a h ih =>
    obtain ⟨ha, hnodup⟩ := List.nodup_cons.mp hnodup
    have hrest : as.filter (fun b => b ∈ a :: bs) = as.filter fun b => b ∈ bs := by
      apply List.filter_congr
      intro b hb
      have hne : b ≠ a := fun heq => ha (heq ▸ hb)
      simp [hne]
    rw [List.filter_cons_of_pos (by simp), hrest, ih hnodup]

variable {t t' : Expectations} (document : Toml.Value)

/-! ### Another order -/

theorem located_perm (h : t'.entries.Perm t.entries) :
    (located t' document).Perm (located t document) := by
  rw [located_eq, located_eq]
  apply List.Perm.flatMap_left
  intro s _
  exact h.flatMap_right _

/-! ### Fewer entries -/

/-- In one section, what is about the entries that are kept is what they find. -/
theorem filter_spots (kept : Expectation → Bool) (s : Section) (es : List Expectation) :
    (es.flatMap fun e => spot document (s, e)).filter (fun p => kept p.2.expectation) =
      (es.filter kept).flatMap fun e => spot document (s, e) := by
  induction es with
  | nil => rfl
  | cons e es ih =>
    have habout : ∀ p ∈ spot document (s, e), p.2.expectation = e :=
      fun p hp => (Prod.mk.inj (place_of_mem_spot hp)).2
    rw [List.flatMap_cons, List.filter_append, ih]
    by_cases he : kept e = true
    · have hall : (spot document (s, e)).filter (fun p => kept p.2.expectation) =
          spot document (s, e) := by
        rw [List.filter_eq_self]
        intro p hp
        rw [habout p hp]
        exact he
      rw [List.filter_cons_of_pos he, List.flatMap_cons, hall]
    · have hnone : (spot document (s, e)).filter (fun p => kept p.2.expectation) = [] := by
        rw [List.filter_eq_nil_iff]
        intro p hp
        rw [habout p hp]
        exact he
      rw [List.filter_cons_of_neg he, hnone, List.nil_append]

/-- **A table without some of its entries finds the same**, without what is about
those entries. -/
theorem located_filter (h : t'.entries.Sublist t.entries) :
    located t' document =
      (located t document).filter fun p => p.2.expectation ∈ t'.entries := by
  rw [located_eq, located_eq, List.filter_flatMap]
  apply List.flatMap_congr
  intro s _
  rw [filter_spots document (fun e => e ∈ t'.entries) s,
    filter_mem_of_sublist h t.distinct.of_map]

/-! ### The issues -/

/-- **Issues depend on a table entry by entry.**  With the entries in another order
the same issues come in another order.  With fewer entries, of those that are left
each issue is there as before and in the same order, and nothing else is: the
deviations are those about entries that are left. -/
theorem issues_entrywise (t t' : Expectations) (label : String) :
    (t'.entries.Perm t.entries → (issues t' label document).Perm (issues t label document)) ∧
    (t'.entries.Sublist t.entries →
      ∃ ds : List (Section × Deviation),
        Enumerates t document ds ∧
        Enumerates t' document (ds.filter fun p => p.2.expectation ∈ t'.entries) ∧
        issues t label document = ds.map (fun p => p.2.line label) ∧
        issues t' label document =
          (ds.filter fun p => p.2.expectation ∈ t'.entries).map (fun p => p.2.line label) ∧
        (issues t' label document).Sublist (issues t label document)) := by
  constructor
  · intro hperm
    rw [issues_eq, issues_eq]
    exact (located_perm document hperm).map _
  · intro hfewer
    have hlocated := located_filter document hfewer
    have hissues : issues t' label document =
        ((located t document).filter fun p => p.2.expectation ∈ t'.entries).map
          fun p => p.2.line label := by
      rw [issues_eq, hlocated]
    refine ⟨located t document, located_enumerates t document, ?_, issues_eq t document label,
      hissues, ?_⟩
    · rw [← hlocated]
      exact located_enumerates t' document
    · rw [hissues, issues_eq]
      exact List.filter_sublist.map _

/-- Three dependencies that are expected. -/
def pinnedThrice : Expectations :=
  ⟨[⟨"a", "1", "./a"⟩, ⟨"b", "1", "./b"⟩, ⟨"c", "1", "./c"⟩], by decide⟩

/-- The same in another order. -/
def pinnedTurned : Expectations :=
  ⟨[⟨"b", "1", "./b"⟩, ⟨"c", "1", "./c"⟩, ⟨"a", "1", "./a"⟩], by decide⟩

/-- The same without the one in the middle. -/
def pinnedOuter : Expectations :=
  ⟨[⟨"a", "1", "./a"⟩, ⟨"c", "1", "./c"⟩], by decide⟩

/-- A document that declares them in two sections. -/
def spread : Toml.Value :=
  .table [("dependencies", .table [("a", .string "0"), ("b", .string "0"), ("c", .string "0")]),
    ("dev-dependencies", .table [("b", .table []), ("c", .string "2")])]

/-- The dependency in the middle has its issues in two places; without it the other
three are left. -/
theorem spread_issues_entrywise :
    (issues pinnedTurned "Cargo.toml" spread).Perm (issues pinnedThrice "Cargo.toml" spread) ∧
    (issues pinnedThrice "Cargo.toml" spread).length = 6 ∧
    issues pinnedOuter "Cargo.toml" spread =
      ["a in Cargo.toml: version 0, expected 1", "c in Cargo.toml: version 0, expected 1",
        "c in Cargo.toml: version 2, expected 1"] ∧
    (issues pinnedOuter "Cargo.toml" spread).Sublist (issues pinnedThrice "Cargo.toml" spread) := by
  have hturned : pinnedTurned.entries.Perm pinnedThrice.entries := by decide
  have houter : pinnedOuter.entries.Sublist pinnedThrice.entries := by decide
  obtain ⟨hperm, -⟩ := issues_entrywise spread pinnedThrice pinnedTurned "Cargo.toml"
  obtain ⟨-, hfewer⟩ := issues_entrywise spread pinnedThrice pinnedOuter "Cargo.toml"
  obtain ⟨ds, -, -, -, -, hsublist⟩ := hfewer houter
  exact ⟨hperm hturned, by decide, by decide, hsublist⟩

end WorkspaceAudit.Manifest

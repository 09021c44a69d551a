/-
WorkspaceAudit/Proofs/Findings.lean

What findings keep of what is recorded.

Recording the issues of files adds those with issues at the end, in order, and
nothing else (`Findings.entries_recordAll`), where an entry is the path and the
issues of a file.  A path is then found at the first file of that path with issues
(`get?_recordAll_empty_iff`), and what is found stays (`get?_recordAll_of_some`).  Since
no file is kept without issues, there are at least as many issues as files.
-/
import Mathlib.Algebra.GroupWithZero.Nat
import WorkspaceAudit.Findings

namespace WorkspaceAudit

/-- The path and the issues of a file. -/
def FileIssues.entry (file : FileIssues) : String × List Issue :=
  (file.path, file.issues)

namespace Findings

theorem entries_record (f : Findings) (path : String) (issues : List Issue) :
    (f.record path issues).1.files.map FileIssues.entry =
      f.files.map FileIssues.entry ++ [(path, issues)].filter fun e => !e.2.isEmpty := by
  by_cases h : issues = []
  · rw [h, record_nil]
    exact (List.append_nil _).symm
  · have hkeep : [(path, issues)].filter (fun e => !e.2.isEmpty) = [(path, issues)] := by
      simp [h]
    rw [record_of_ne_nil h, List.map_append, hkeep]
    rfl

/-- Recording keeps what was kept, and of the new files those with issues. -/
theorem entries_recordAll (f : Findings) (checked : List (String × List Issue)) :
    (f.recordAll checked).files.map FileIssues.entry =
      f.files.map FileIssues.entry ++ checked.filter fun e => !e.2.isEmpty := by
  -- on the files that are still to be recorded, whatever has been kept
  induction checked generalizing f with
  | nil => exact (List.append_nil _).symm
  | cons c checked ih =>
    have hstep : f.recordAll (c :: checked) = (f.record c.1 c.2).1.recordAll checked := rfl
    rw [hstep, ih, entries_record, List.append_assoc, ← List.filter_append]
    rfl

theorem size_eq (f : Findings) : f.size = (f.files.map FileIssues.entry).length := by
  rw [size, List.length_map]

theorem total_eq (f : Findings) :
    f.total = ((f.files.map FileIssues.entry).map fun e => e.2.length).sum := by
  have key : ∀ files : List FileIssues,
      files.foldr (fun file n => file.issues.length + n) 0 =
        ((files.map FileIssues.entry).map fun e => e.2.length).sum := by
    intro files
    induction files with
    | nil => rfl
    | cons file files ih =>
      rw [List.foldr_cons, ih]
      rfl
  exact key f.files

theorem isEmpty_iff {f : Findings} : f.isEmpty = true ↔ f.files.map FileIssues.entry = [] := by
  rw [isEmpty, List.isEmpty_iff, List.map_eq_nil_iff]

/-! ### Calls one after the other -/

/-- What is answered to calls, one after the other. -/
def answers (f : Findings) : List (String × List Issue) → List Bool
  | [] => []
  | c :: calls => (f.record c.1 c.2).2 :: (f.record c.1 c.2).1.answers calls

theorem record_answer (f : Findings) (path : String) (issues : List Issue) :
    (f.record path issues).2 = !issues.isEmpty := by
  by_cases h : issues = []
  · rw [h, record_nil]
    rfl
  · rw [record_of_ne_nil h, List.isEmpty_eq_false_iff.mpr h]
    rfl

/-- Whether a file is kept does not depend on what was kept before. -/
theorem answers_eq (f : Findings) (calls : List (String × List Issue)) :
    f.answers calls = calls.map fun c => !c.2.isEmpty := by
  induction calls generalizing f with
  | nil => rfl
  | cons c calls ih => rw [answers, ih, record_answer, List.map_cons]

theorem entries_recordAll_empty (calls : List (String × List Issue)) :
    (empty.recordAll calls).files.map FileIssues.entry = calls.filter fun c => !c.2.isEmpty := by
  rw [entries_recordAll]
  rfl

theorem get?_eq (f : Findings) (path : String) :
    f.get? path = ((f.files.map FileIssues.entry).find? fun e => e.1 == path).map Prod.snd := by
  rw [get?, List.find?_map, Option.map_map]
  rfl

/-- What is found of a path is found whatever is recorded later. -/
theorem get?_recordAll_of_some {f : Findings} {path : String} {issues : List Issue}
    (h : f.get? path = some issues) (later : List (String × List Issue)) :
    (f.recordAll later).get? path = some issues := by
  rw [get?_eq] at h
  obtain ⟨e, he, rfl⟩ := Option.map_eq_some_iff.mp h
  rw [get?_eq, entries_recordAll, List.find?_append, he]
  rfl

/-- What is found of a path are the issues of the first call with that path and some
issue. -/
theorem get?_recordAll_empty_iff {calls : List (String × List Issue)} {path : String}
    {issues : List Issue} :
    (empty.recordAll calls).get? path = some issues ↔
      ∃ earlier later, calls = earlier ++ (path, issues) :: later ∧ issues ≠ [] ∧
        ∀ c ∈ earlier, c.1 = path → c.2 = [] := by
  rw [get?_eq, entries_recordAll_empty, List.find?_filter, Option.map_eq_some_iff]
  constructor
  · rintro ⟨⟨path', issues⟩, hfind, rfl⟩
    obtain ⟨hhere, earlier, later, hcalls, hearlier⟩ := List.find?_eq_some_iff_append.mp hfind
    have hmatch : issues ≠ [] ∧ path' = path := by simpa using hhere
    obtain ⟨hissues, rfl⟩ := hmatch
    refine ⟨earlier, later, hcalls, hissues, fun c hc hpath => ?_⟩
    simpa [hpath] using hearlier c hc
  · rintro ⟨earlier, later, hcalls, hissues, hearlier⟩
    refine ⟨(path, issues), List.find?_eq_some_iff_append.mpr ⟨?_, earlier, later, hcalls, ?_⟩, rfl⟩
    · simpa using hissues
    · intro c hc
      by_cases hpath : c.1 = path
      · simp [hearlier c hc hpath]
      · simp [hpath]

/-- Each file that is kept has an issue. -/
theorem size_le_total (f : Findings) : f.size ≤ f.total := by
  rw [size, total]
  induction f.files with
  | nil => exact Nat.le_refl _
  | cons file files ih =>
    have hpos := List.length_pos_iff.mpr file.nonempty
    rw [List.length_cons, List.foldr_cons]
    omega

theorem isEmpty_iff_total {f : Findings} : f.isEmpty = true ↔ f.total = 0 := by
  rw [isEmpty, List.isEmpty_iff, ← List.length_eq_zero_iff]
  constructor
  · intro h
    rw [total, List.length_eq_zero_iff.mp h, List.foldr_nil]
  · intro h
    exact Nat.le_zero.mp (h ▸ f.size_le_total)

/-- Calls without issues add nothing to the number of issues. -/
theorem total_recordAll_empty (calls : List (String × List Issue)) :
    (empty.recordAll calls).total = (calls.map fun c => c.2.length).sum := by
  rw [total_eq, entries_recordAll_empty]
  induction calls with
  | nil => rfl
  | cons c calls ih =>
    rw [List.map_cons, List.sum_cons, ← ih]
    rcases hc : c.2 with - | ⟨issue, issues⟩
    · simp [hc]
    · simp [hc]

/-- **Findings keep of any calls those with issues, as they came.**  Each call answers
whether it had issues; a path is found at the first call that had, now and after any
later calls; and the issues are those of all calls, at least one for each file. -/
theorem recordAll_calls (calls later : List (String × List Issue)) :
    empty.answers calls = calls.map (fun c => !c.2.isEmpty) ∧
      (empty.recordAll calls).files.map FileIssues.entry =
        calls.filter (fun c => !c.2.isEmpty) ∧
      (∀ path issues, (empty.recordAll calls).get? path = some issues ↔
        ∃ earlier later, calls = earlier ++ (path, issues) :: later ∧ issues ≠ [] ∧
          ∀ c ∈ earlier, c.1 = path → c.2 = []) ∧
      (∀ path issues, (empty.recordAll calls).get? path = some issues →
        ((empty.recordAll calls).recordAll later).get? path = some issues) ∧
      (empty.recordAll calls).size ≤ (empty.recordAll calls).total ∧
      (empty.recordAll calls).total = (calls.map fun c => c.2.length).sum ∧
      ((empty.recordAll calls).isEmpty = true ↔ (empty.recordAll calls).total = 0) :=
  ⟨answers_eq empty calls, entries_recordAll_empty calls,
    fun _ _ => get?_recordAll_empty_iff, fun _ _ h => get?_recordAll_of_some h later,
    size_le_total _, total_recordAll_empty calls, isEmpty_iff_total⟩

/-- A path that is clean, then has issues, and then others. -/
theorem twice_recordAll_calls :
    ((empty.recordAll [("b", []), ("b", ["x", "y"]), ("a", ["z"])]).recordAll
        [("b", ["w"]), ("c", ["v"])]).get? "b" = some ["x", "y"] := by
  obtain ⟨-, -, hget, hstays, -⟩ :=
    recordAll_calls [("b", []), ("b", ["x", "y"]), ("a", ["z"])] [("b", ["w"]), ("c", ["v"])]
  exact hstays "b" _ ((hget "b" _).mpr ⟨[("b", [])], [("a", ["z"])], rfl, by decide, by decide⟩)

end Findings

end WorkspaceAudit

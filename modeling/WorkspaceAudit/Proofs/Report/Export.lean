/-
WorkspaceAudit/Proofs/Report/Export.lean

The JSON of a report tells what was found.

`Report.datum` is the value that is to be read: the files in order, each with its
path and its issues as they were found, and the number of all issues.  The export
is a JSON text of that value and of no other (`jsonText_faithful`), so two findings
with the same export are the same.
-/
import WorkspaceAudit.Proofs.Findings
import WorkspaceAudit.Proofs.Json.Unambiguous
import WorkspaceAudit.Proofs.Json.Writing
import WorkspaceAudit.Report

namespace WorkspaceAudit.Report

open Json

/-! ### The value of an export -/

/-- What is exported of a file. -/
def fileDatum (path : String) (issues : List Issue) : Datum :=
  .object [("issues", .array (issues.map .string)), ("path", .string path)]

/-- What is exported of findings: the files, and the number of the issues of all
of them. -/
def datum (f : Findings) : Datum :=
  .object [("files", .array (f.files.map fun file => fileDatum file.path file.issues)),
    ("total_issues", .number (Nat.toDigits 10 (f.files.map fun file => file.issues.length).sum))]

theorem toItems_map {α : Type} (g : α → Value) (as : List α) :
    Value.toItems (as.map g) = as.map fun a => (g a).toDatum := by
  induction as with
  | nil => rfl
  | cons a as ih => rw [List.map_cons, Value.toItems, ih, List.map_cons]

theorem toDatum_fileJson (file : FileIssues) :
    (fileJson file).toDatum = fileDatum file.path file.issues := by
  have hissues := toItems_map Value.string file.issues
  simp only [fileJson, fileDatum, Value.toDatum, Value.toMembers, hissues]

theorem toDatum_json (f : Findings) : (json f).toDatum = datum f := by
  have hfiles := toItems_map fileJson f.files
  simp only [toDatum_fileJson] at hfiles
  simp only [json, datum, Value.toDatum, Value.toMembers, hfiles, numberText, Findings.total_eq,
    List.map_map]
  rfl

/-- A file is told by what is exported of it. -/
theorem fileDatum_injective {file file' : FileIssues}
    (h : fileDatum file.path file.issues = fileDatum file'.path file'.issues) : file = file' := by
  obtain ⟨path, issues, hne⟩ := file
  obtain ⟨path', issues', hne'⟩ := file'
  simp only [fileDatum, Datum.object.injEq, List.cons.injEq, Prod.mk.injEq, Datum.array.injEq,
    Datum.string.injEq, true_and, and_true] at h
  obtain ⟨hissues, rfl⟩ := h
  obtain rfl := List.map_injective_iff.mpr (fun _ _ => Datum.string.inj) hissues
  rfl

theorem datum_injective {f g : Findings} (h : datum f = datum g) : f = g := by
  obtain ⟨files⟩ := f
  obtain ⟨files'⟩ := g
  simp only [datum, Datum.object.injEq, List.cons.injEq, Prod.mk.injEq, Datum.array.injEq,
    true_and] at h
  rw [List.map_injective_iff.mpr (fun _ _ => fileDatum_injective) h.1]

/-! ### The text of an export -/

theorem says_jsonText (f : Findings) : Says (jsonText f) (datum f) := by
  rw [jsonText, ← toDatum_json]
  exact (json f).says_pretty

/-- **The export is a JSON text of what was found**, and of nothing else; what was
found is told by its export. -/
theorem jsonText_faithful (f : Findings) :
    Says (jsonText f) (datum f) ∧ (∀ v, Says (jsonText f) v → v = datum f) ∧
      ∀ g, jsonText f = jsonText g → f = g := by
  refine ⟨says_jsonText f, fun v hv => hv.unique (says_jsonText f), fun g heq => ?_⟩
  refine datum_injective ((says_jsonText f).unique ?_)
  rw [heq]
  exact says_jsonText g

/-- Findings with quotes, backslashes, line feeds, control characters and a character
beyond sixteen bits, and with an empty path. -/
def odd : Findings :=
  ⟨[⟨"a\"\\😀", ["\n", "\x01\x7f"], List.cons_ne_nil _ _⟩, ⟨"", [""], List.cons_ne_nil _ _⟩]⟩

theorem odd_jsonText_faithful :
    jsonText odd =
        "\x7b\n  \"files\": [\n    \x7b\n      \"issues\": [\n        \"\\n\",\n" ++
          "        \"\\u0001\x7f\"\n      ],\n      \"path\": \"a\\\"\\\\😀\"\n    \x7d,\n" ++
          "    \x7b\n      \"issues\": [\n        \"\"\n      ],\n      \"path\": \"\"\n    \x7d\n" ++
          "  ],\n  \"total_issues\": 3\n\x7d" ∧
      Says (jsonText odd) (.object
        [("files", .array
          [.object [("issues", .array [.string "\n", .string "\x01\x7f"]),
              ("path", .string "a\"\\😀")],
            .object [("issues", .array [.string ""]), ("path", .string "")]]),
          ("total_issues", .number ['3'])]) ∧
      ¬ Says (jsonText odd) (.array []) ∧ jsonText odd ≠ jsonText Findings.empty := by
  obtain ⟨hsaid, honly, htold⟩ := jsonText_faithful odd
  refine ⟨by decide +kernel, hsaid, fun h => ?_, fun h => ?_⟩
  · cases honly _ h
  · exact absurd (htold _ h) (by decide)

end WorkspaceAudit.Report

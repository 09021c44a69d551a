/-
WorkspaceAudit/Proofs/Clean.lean

What a clean run says.

`CleanSource` and `CleanManifest` say of a path, without the checks, what must
be in the file that it leads to.  A check answers no issues exactly there
(`sourceIssues_eq_nil_iff`, `manifestIssues_eq_nil_iff`), and a scan keeps
nothing exactly if no check has issues, so a run that ends well has found
nothing exactly if every file of both passes is clean.  The report says so in
one line, and in no other case (`text_eq_iff`).
-/
import WorkspaceAudit.Diagnosis
import WorkspaceAudit.Proofs.Scan.Blocks
import WorkspaceAudit.Proofs.Source

namespace WorkspaceAudit

/-! ### Clean files -/

/-- The path leads to a text that does not mention the retired name and in
which each pair of delimiters occurs equally often. -/
def CleanSource (t : FileTree) (p : Path) : Prop :=
  ∃ text : String, t.readBytes p = .ok (Bytes.ofText text) ∧
    ¬ "ProgramResult".toList <:+: text.toList ∧
    text.toList.count '{' = text.toList.count '}' ∧
    text.toList.count '(' = text.toList.count ')' ∧
    text.toList.count '[' = text.toList.count ']'

/-- The path leads to a document in which all that is declared under a name of
the table complies. -/
def CleanManifest (expectations : Expectations) (t : FileTree) (p : Path) : Prop :=
  ∃ (text : String) (document : Toml.Value), t.readBytes p = .ok (Bytes.ofText text) ∧
    Toml.parse text = .ok document ∧
    ∀ fs, Manifest.Declares document fs → ∀ e ∈ expectations.entries, ∀ v,
      fs.lookup e.name = some v → Manifest.Complies e v

namespace Scan

variable {t : FileTree} {p : Path}

theorem sourceIssues_eq_nil_iff : sourceIssues t p = [] ↔ CleanSource t p := by
  rw [sourceIssues, CleanSource]
  simp only [← FileTree.readText_eq_ok_iff, ← Source.issues_eq_nil_iff]
  rcases t.readText p with e | text
  · simp
  · simp

theorem loadManifest_eq_ok_iff {document : Toml.Value} :
    loadManifest t p = .ok document ↔
      ∃ text, t.readBytes p = .ok (Bytes.ofText text) ∧ Toml.parse text = .ok document := by
  simp only [← FileTree.readText_eq_ok_iff]
  rw [loadManifest]
  rcases t.readText p with e | text
  · simp
  · dsimp only
    rw [Manifest.ofText]
    rcases hparse : Toml.parse text with e | v
    · simp [hparse]
    · simp [hparse]

theorem manifestIssues_eq_nil_iff {expectations : Expectations} :
    manifestIssues expectations t p = [] ↔ CleanManifest expectations t p := by
  rw [manifestIssues]
  constructor
  · intro h
    split at h
    · next document hload =>
      obtain ⟨text, hbytes, hparse⟩ := loadManifest_eq_ok_iff.mp hload
      exact ⟨text, document, hbytes, hparse, Manifest.issues_eq_nil_iff.mp h⟩
    · cases h
  · rintro ⟨text, document, hbytes, hparse, hall⟩
    rw [loadManifest_eq_ok_iff.mpr ⟨text, hbytes, hparse⟩]
    exact Manifest.issues_eq_nil_iff.mpr hall

/-! ### Clean scans -/

theorem recorded_eq_nil_iff {check : Path → Run (List Issue)} {s : Session}
    {files : List Path} :
    recorded check s files = [] ↔ ∀ p ∈ files, ((check p).run s).1 = [] := by
  rw [recorded, List.filter_eq_nil_iff]
  simp

section

variable {c : Config} {g h : Glob} {s : Session} (hlog : LogApart c g h s)
include hlog

theorem sourceBlock_eq_nil_iff :
    sourceBlock c g s = [] ↔ ∀ p ∈ sourceFiles c g s, CleanSource s.tree p := by
  rw [sourceBlock, recorded_eq_nil_iff]
  refine forall₂_congr fun p hp => ?_
  rw [hlog.checkSource_answer hp, sourceIssues_eq_nil_iff]

theorem manifestBlock_eq_nil_iff :
    manifestBlock c h s = [] ↔
      ∀ p ∈ manifestFiles c h s, CleanManifest c.expectations s.tree p := by
  rw [manifestBlock, recorded_eq_nil_iff]
  refine forall₂_congr fun p hp => ?_
  rw [hlog.checkManifest_answer hp, manifestIssues_eq_nil_iff]

/-- Nothing is found exactly if all files of both passes are clean. -/
theorem findings_isEmpty_iff :
    (findings c g h s.tree).isEmpty = true ↔
      (∀ p ∈ sourceFiles c g s, CleanSource s.tree p) ∧
        ∀ p ∈ manifestFiles c h s, CleanManifest c.expectations s.tree p := by
  rw [Findings.isEmpty_iff, entries_findings hlog, List.map_eq_nil_iff,
    List.append_eq_nil_iff, sourceBlock_eq_nil_iff hlog, manifestBlock_eq_nil_iff hlog]

end

end Scan

/-! ### The report -/

namespace Report

/-- What stands in the body of a report on a file begins with an empty line. -/
theorem body_of_not_isEmpty {f : Findings} (h : f.isEmpty = false) :
    ∃ rest, body f = '\n' :: rest := by
  obtain ⟨files⟩ := f
  cases files with
  | nil => cases h
  | cons file files => exact ⟨_, rfl⟩

/-- The report says that nothing was found exactly if nothing was. -/
theorem text_eq_iff (f : Findings) :
    text f = "Solana Program Diagnostic Summary\n" ++ String.ofList (List.replicate 40 '=') ++
      "\n\nNo issues found. 🎉\n" ↔ f.isEmpty = true := by
  have hnothing : "Solana Program Diagnostic Summary\n" ++
      String.ofList (List.replicate 40 '=') ++ "\n\nNo issues found. 🎉\n" =
        String.ofList (heading ++ (nothingFound.toList ++ ['\n'])) := by
    decide +kernel
  rw [hnothing, text, String.ofList_inj, List.append_cancel_left_eq]
  -- the line about nothing begins with a letter, the lines of a file do not
  cases hf : f.isEmpty with
  | true => simp [body, hf]
  | false =>
    obtain ⟨rest, hbody⟩ := body_of_not_isEmpty hf
    rw [hbody]
    simp [nothingFound]

end Report

/-! ### The run -/

namespace Diagnosis

open Scan

variable {c : Config} {g h : Glob} {s : Session} {f : Findings}

/-- A run that ends with findings has those of a scan of the files as they were
when it started. -/
theorem findings_of_run (hp : patterns c = .ok (g, h)) (hlog : LogApart c g h s)
    (hrun : ((run c).run s).1 = .ok (some f)) : f = findings c g h s.tree := by
  unfold run at hrun
  rw [Run.run_bind, Run.run_say, Run.run_bind, Run.run_ask] at hrun
  split at hrun
  · -- the line before the scan may be in one of the files, but in none that is read
    obtain ⟨hanswer, -⟩ := workspace_logs hp hlog.files
      (s.record ⟨.info, "Starting diagnostic scan..."⟩) (by rw [Session.recorder_record])
      (Session.sameBut_record _ _)
    rw [Run.run_bind, hanswer] at hrun
    dsimp only at hrun
    rw [Run.run_bind] at hrun
    split at hrun
    · cases hrun
    · cases hrun
      rfl
  · -- there is no root
    cases hrun

/-- **A run finds nothing exactly if all is clean**: the sources and the
manifests that its searches find.  The report then is a heading with one line,
and for no other findings. -/
theorem clean_run (hp : patterns c = .ok (g, h)) (hlog : LogApart c g h s)
    (hrun : ((run c).run s).1 = .ok (some f)) :
    (f.isEmpty = true ↔
      (∀ p ∈ ((find (c.root.join c.sourceDir) g).run s).1, CleanSource s.tree p) ∧
        ∀ p ∈ ((find c.root h).run s).1, CleanManifest c.expectations s.tree p) ∧
    ∀ f' : Findings,
      Report.text f' = "Solana Program Diagnostic Summary\n" ++
        String.ofList (List.replicate 40 '=') ++ "\n\nNo issues found. 🎉\n" ↔
          f'.isEmpty = true := by
  obtain rfl := findings_of_run hp hlog hrun
  exact ⟨findings_isEmpty_iff hlog, Report.text_eq_iff⟩

/-- A session on a small workspace with nothing to be found. -/
def cleanSession : Session :=
  smallSession (Bytes.ofText "fn f() \x7b\x7d")
    (Bytes.ofText "[dependencies]\nsolana-sdk = \"1.25.0\"\n")

/-- Balanced braces and the version that is expected are clean, under both
names of the source. -/
theorem clean_small_run :
    ((find (smallConfig.root.join smallConfig.sourceDir) ⟨"*.rs"⟩).run cleanSession).1 =
        ["./src/a.rs", "./src/b.rs"].map Bytes.ofText ∧
      ((run smallConfig).run cleanSession).1 = .ok (some ⟨[]⟩) ∧
      (∀ p ∈ ((find (smallConfig.root.join smallConfig.sourceDir) ⟨"*.rs"⟩).run
        cleanSession).1, CleanSource cleanSession.tree p) ∧
      ∀ p ∈ ((find smallConfig.root ⟨"Cargo.toml"⟩).run cleanSession).1,
        CleanManifest smallConfig.expectations cleanSession.tree p := by
  have hrun : ((run smallConfig).run cleanSession).1 = .ok (some ⟨[]⟩) := by decide +kernel
  obtain ⟨hclean, -⟩ := clean_run rfl (smallSession_logApart _ _) hrun
  exact ⟨by decide +kernel, hrun, hclean.mp rfl⟩

end Diagnosis

end WorkspaceAudit

/-
WorkspaceAudit/Proofs/Scan/Isolation.lean

One file does not affect what is found in another.

Two scans are compared, of trees that are the same but for what is in one
file.  A search does not look into files, so both find the same ones, and a
path leads to the file in both trees or in neither.  A check of a path that
leads elsewhere reads the same text, so it answers the same, and what each
pass records for such paths is the same list (`recorded_elsewhere`).  This
holds wherever the file comes in a pass and however often links lead to it.
-/
import WorkspaceAudit.Proofs.Scan.Blocks

namespace WorkspaceAudit.Scan

/-- What a block records for paths that do not lead to this location. -/
def elsewhere (t : FileTree) (loc : Location) (block : List (Path × List Issue)) :
    List (Path × List Issue) :=
  block.filter fun e => !t.leadsTo loc e.1

theorem elsewhere_append (t : FileTree) (loc : Location)
    (block block' : List (Path × List Issue)) :
    elsewhere t loc (block ++ block') = elsewhere t loc block ++ elsewhere t loc block' :=
  List.filter_append ..

/-- Leaving paths out of what is recorded is not checking them. -/
theorem elsewhere_recorded (t : FileTree) (loc : Location) (check : Path → Run (List Issue))
    (s : Session) (files : List Path) :
    elsewhere t loc (recorded check s files) =
      recorded check s (files.filter fun p => !t.leadsTo loc p) := by
  rw [elsewhere, recorded, recorded, List.filter_comm, List.filter_map]
  rfl

theorem recorded_congr {check : Path → Run (List Issue)} {s s' : Session}
    {files : List Path} (h : ∀ p ∈ files, ((check p).run s).1 = ((check p).run s').1) :
    recorded check s files = recorded check s' files := by
  have hanswers : files.map (fun p => (p, ((check p).run s).1)) =
      files.map fun p => (p, ((check p).run s').1) :=
    List.map_congr_left fun p hp => congrArg (Prod.mk p) (h p hp)
  rw [recorded, recorded, hanswers]

section TwoRuns

variable {c : Config} {g h : Glob} {loc : Location} {s s' : Session}
  (hsame : s.tree.SameBut (· = loc) s'.tree)
include hsame

theorem sourceFiles_congr : sourceFiles c g s = sourceFiles c g s' := by
  rw [sourceFiles_eq, sourceFiles_eq, hsame.similar.files_eq]

theorem manifestFiles_congr : manifestFiles c h s = manifestFiles c h s' := by
  rw [manifestFiles_eq, manifestFiles_eq, hsame.similar.files_eq]

/-- Elsewhere the same text is read. -/
theorem readText_elsewhere {p : Path} (hp : s.tree.leadsTo loc p = false) :
    s.tree.readText p = s'.tree.readText p :=
  hsame.readText_eq fun _ heq => heq ▸ hp

/-- Two checks that agree elsewhere record the same there. -/
theorem recorded_elsewhere {check : Path → Run (List Issue)} {files : List Path}
    (h : ∀ p ∈ files, s.tree.leadsTo loc p = false →
      ((check p).run s).1 = ((check p).run s').1) :
    elsewhere s.tree loc (recorded check s files) =
      elsewhere s'.tree loc (recorded check s' files) := by
  -- the same paths are left out on both sides
  rw [elsewhere_recorded, elsewhere_recorded]
  simp only [← hsame.leadsTo_eq]
  refine recorded_congr fun p hp => ?_
  obtain ⟨hp, hout⟩ := List.mem_filter.mp hp
  exact h p hp (by simpa using hout)

variable (hlog : LogApart c g h s) (hlog' : LogApart c g h s')
include hlog hlog'

theorem sourceBlock_elsewhere :
    elsewhere s.tree loc (sourceBlock c g s) = elsewhere s'.tree loc (sourceBlock c g s') := by
  have hfiles : sourceFiles c g s = sourceFiles c g s' := sourceFiles_congr hsame
  rw [sourceBlock, sourceBlock, ← hfiles]
  refine recorded_elsewhere hsame fun p hp hout => ?_
  rw [hlog.checkSource_answer hp, hlog'.checkSource_answer (hfiles ▸ hp), sourceIssues,
    sourceIssues, readText_elsewhere hsame hout]

theorem manifestBlock_elsewhere :
    elsewhere s.tree loc (manifestBlock c h s) =
      elsewhere s'.tree loc (manifestBlock c h s') := by
  have hfiles : manifestFiles c h s = manifestFiles c h s' := manifestFiles_congr hsame
  rw [manifestBlock, manifestBlock, ← hfiles]
  refine recorded_elsewhere hsame fun p hp hout => ?_
  rw [hlog.checkManifest_answer hp, hlog'.checkManifest_answer (hfiles ▸ hp), manifestIssues,
    manifestIssues, loadManifest, loadManifest, readText_elsewhere hsame hout]

end TwoRuns

/-- **One file affects no other.**  Two scans of trees that are the same but for
what is in one file both answer findings, from the same files in the same
order; each path leads to the file in both trees or in neither; and what they
find in paths that lead elsewhere is the same list, in each pass and in all. -/
theorem workspace_isolated {c : Config} {g h : Glob} (hp : patterns c = .ok (g, h))
    {loc : Location} {s s' : Session} (hsame : s.tree.SameBut (· = loc) s'.tree)
    (hlog : LogApart c g h s) (hlog' : LogApart c g h s') :
    ∃ f f', ((workspace c).run s).1 = .ok f ∧ ((workspace c).run s').1 = .ok f' ∧
      f.files.map FileIssues.entry =
        (sourceBlock c g s ++ manifestBlock c h s).map shownEntry ∧
      f'.files.map FileIssues.entry =
        (sourceBlock c g s' ++ manifestBlock c h s').map shownEntry ∧
      sourceFiles c g s = sourceFiles c g s' ∧
      manifestFiles c h s = manifestFiles c h s' ∧
      (∀ p, s.tree.leadsTo loc p = s'.tree.leadsTo loc p) ∧
      elsewhere s.tree loc (sourceBlock c g s) =
        elsewhere s'.tree loc (sourceBlock c g s') ∧
      elsewhere s.tree loc (manifestBlock c h s) =
        elsewhere s'.tree loc (manifestBlock c h s') ∧
      elsewhere s.tree loc (sourceBlock c g s ++ manifestBlock c h s) =
        elsewhere s'.tree loc (sourceBlock c g s' ++ manifestBlock c h s') := by
  have hsources : elsewhere s.tree loc (sourceBlock c g s) = _ :=
    sourceBlock_elsewhere hsame hlog hlog'
  have hmanifests : elsewhere s.tree loc (manifestBlock c h s) = _ :=
    manifestBlock_elsewhere hsame hlog hlog'
  refine ⟨findings c g h s.tree, findings c g h s'.tree, (workspace_run hp hlog).1,
    (workspace_run hp hlog').1, entries_findings hlog, entries_findings hlog',
    sourceFiles_congr hsame, manifestFiles_congr hsame, hsame.leadsTo_eq loc,
    hsources, hmanifests, ?_⟩
  rw [elsewhere_append, elsewhere_append, hsources, hmanifests]

/-- A source is no text in one tree and unbalanced in the other.  That is found
under its name and through a link, and the manifest is found all the same. -/
theorem small_workspace_isolated :
    ∃ f f', ((workspace smallConfig).run (smallSession [0xFF] oldManifest)).1 = .ok f ∧
      ((workspace smallConfig).run (smallSession (Bytes.ofText "\x7b") oldManifest)).1 = .ok f' ∧
      f.files.map FileIssues.entry ≠ f'.files.map FileIssues.entry ∧
      elsewhere (smallTree [0xFF] oldManifest) smallSource
          (sourceBlock smallConfig ⟨"*.rs"⟩ (smallSession [0xFF] oldManifest) ++
            manifestBlock smallConfig ⟨"Cargo.toml"⟩ (smallSession [0xFF] oldManifest)) =
        [(Bytes.ofText "./Cargo.toml",
          ["solana-sdk in ./Cargo.toml: version 1.0.0, expected 1.25.0"])] := by
  have hsame : (smallSession [0xFF] oldManifest).tree.SameBut (· = smallSource)
      (smallSession (Bytes.ofText "\x7b") oldManifest).tree := smallTree_source _ _ _
  obtain ⟨f, f', hanswer, hanswer', hentries, hentries', -⟩ :=
    workspace_isolated (c := smallConfig) rfl hsame (smallSession_logApart _ _)
      (smallSession_logApart _ _)
  refine ⟨f, f', hanswer, hanswer', ?_, by decide +kernel⟩
  rw [hentries, hentries']
  decide +kernel

end WorkspaceAudit.Scan

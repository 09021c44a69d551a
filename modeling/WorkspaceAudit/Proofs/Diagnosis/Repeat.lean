/-
WorkspaceAudit/Proofs/Diagnosis/Repeat.lean

Running twice.

A run that succeeds has written its reports, and it may have made new files
where it searched.  If no path that is found now comes to what was written,
then a search finds what it found before, and every path that is read gives
the same text; so a second run finds the same (`findings_of_written`).  It
writes the same contents to the same places, where they already stand
(`Reported.again`), and so it leaves every file as it is.
-/
import WorkspaceAudit.Proofs.Diagnosis.Outputs
import WorkspaceAudit.Proofs.Tree.Additions

namespace WorkspaceAudit

open FileTree

/-! ### Scanning again -/

namespace Scan

variable {t t' : FileTree} {S : Location → Prop}

/-- Files that hold the same texts have the same issues, under the same paths. -/
theorem checked_congr {issues issues' : Path → List Issue} {files : List Path}
    (h : ∀ p ∈ files, issues p = issues' p) : checked issues files = checked issues' files :=
  List.map_congr_left fun p hp => by rw [h p hp]

/-- **A scan that comes to nothing that was written finds the same.** -/
theorem findings_of_written (hw : Written S t t') (c : Config) (g h : Glob)
    (hout : ∀ p ∈ t'.files c.sourceRoot g ++ t'.files c.root h, ∀ loc ∈ t'.stations p, ¬ S loc) :
    findings c g h t' = findings c g h t := by
  have hsources : t'.files c.sourceRoot g = t.files c.sourceRoot g :=
    hw.files_eq fun p hp => hout p (List.mem_append_left _ hp)
  have hmanifests : t'.files c.root h = t.files c.root h :=
    hw.files_eq fun p hp => hout p (List.mem_append_right _ hp)
  have hread : ∀ p ∈ t'.files c.sourceRoot g ++ t'.files c.root h,
      t'.readText p = t.readText p := fun p hp => hw.readText_eq (hout p hp)
  have hsourceIssues : ∀ p ∈ t'.files c.sourceRoot g, sourceIssues t' p = sourceIssues t p := by
    intro p hp
    rw [sourceIssues, sourceIssues, hread p (List.mem_append_left _ hp)]
  have hmanifestIssues : ∀ p ∈ t'.files c.root h,
      manifestIssues c.expectations t' p = manifestIssues c.expectations t p := by
    intro p hp
    rw [manifestIssues, manifestIssues, loadManifest, loadManifest,
      hread p (List.mem_append_right _ hp)]
  rw [findings, findings, checked_congr hsourceIssues, checked_congr hmanifestIssues, hsources,
    hmanifests]

end Scan

namespace Diagnosis

variable {c : Config} {g h : Glob} {f : Findings} {t t' t'' : FileTree}
  {answer : Except RunError Unit}

/-! ### Writing again -/

/-- A run wrote to this location: one of its paths leads there. -/
def Output (c : Config) (t : FileTree) (loc : Location) : Prop :=
  ∃ q ∈ c.reportFile :: c.jsonReport.toList, t.writesTo q = .ok loc

/-- Reports were written to the files that their paths now lead to. -/
theorem Reported.written (h : Reported c f t (.ok ()) t') : Written (Output c t') t t' := by
  cases h with
  | text hp hq =>
    have hw := (takes_of_writesTo hp).written (Bytes.ofText (Report.text f))
    refine hw.mono ?_
    rintro _ rfl
    exact ⟨c.reportFile, List.mem_cons_self, hw.writesTo_eq_ok_iff.mpr hp⟩
  | @exported loc loc' q hp hq hp' =>
    have hw := (takes_of_writesTo hp).written (Bytes.ofText (Report.text f))
    have hw' := (takes_of_writesTo hp').written (Bytes.ofText (Report.jsonText f))
    have hboth := (hw.mono fun l => @Or.inl (l = loc) (l = loc')).trans (hw'.mono fun _ => .inr)
    refine hboth.mono ?_
    rintro _ (rfl | rfl)
    · exact ⟨c.reportFile, List.mem_cons_self, hboth.writesTo_eq_ok_iff.mpr hp⟩
    · refine ⟨q, List.mem_cons_of_mem _ (by simp [hq]), ?_⟩
      rw [hboth.writesTo_eq_ok_iff, ← hw.writesTo_eq_ok_iff]
      exact hp'

/-- The files decide how writing the reports ends. -/
theorem Reported.unique {answer' : Except RunError Unit} (h : Reported c f t answer t')
    (h' : Reported c f t answer' t'') : answer = answer' ∧ t' = t'' := by
  cases h <;> cases h' <;> simp_all

/-- **Reports that were written are written again**, and nothing changes. -/
theorem Reported.again (h : Reported c f t (.ok ()) t') : Reported c f t' (.ok ()) t' := by
  have hw := h.written
  cases h with
  | @text loc hp hq =>
    have hholds := (takes_of_writesTo hp).holds (Bytes.ofText (Report.text f))
    have hagain := Reported.text (f := f) (hw.writesTo_eq_ok_iff.mpr hp) hq
    rwa [hholds.write_eq] at hagain
  | @exported loc loc' q hp hq hp' =>
    have htakes := takes_of_writesTo hp
    have htakes' := takes_of_writesTo hp'
    have hw' := htakes'.written (Bytes.ofText (Report.jsonText f))
    have hholds' := htakes'.holds (Bytes.ofText (Report.jsonText f))
    have hp₂ := hw.writesTo_eq_ok_iff.mpr hp
    have hp₂' := hw'.writesTo_eq_ok_iff.mpr hp'
    -- the text is written and then the JSON, to the files that both have left
    have hagain := Reported.exported (f := f) hp₂ hq
      (((takes_of_writesTo hp₂).written (Bytes.ofText (Report.text f))).writesTo_eq_ok_iff.mpr hp₂')
    by_cases hne : loc = loc'
    · subst hne
      rwa [(takes_of_writesTo hp₂).write_write, hholds'.write_eq] at hagain
    · have hholds := (htakes.holds (Bytes.ofText (Report.text f))).of_written hw' hne
      rwa [hholds.write_eq, hholds'.write_eq] at hagain

/-! ### Running again -/

/-- **A second run does as the first did.**  After a run with findings, if no
path that is found for either pass is resolved to, or through, a file that the
run wrote, then the same run has the same findings and leaves all files as they
are. -/
theorem run_again {s : Session} {r : Findings} (hlog : s.recorder.file? = none)
    (hp : Scan.patterns c = .ok (g, h)) (hrun : ((run c).run s).1 = .ok (some r))
    (hout : ∀ p ∈ Scan.sourceFiles c g ((run c).run s).2 ++ Scan.manifestFiles c h ((run c).run s).2,
      ∀ q ∈ c.reportFile :: c.jsonReport.toList, ∀ loc,
        ((run c).run s).2.tree.writesTo q = .ok loc → loc ∉ ((run c).run s).2.tree.stations p) :
    ((run c).run ((run c).run s).2).1 = .ok (some r) ∧
      ((run c).run ((run c).run s).2).2.tree = ((run c).run s).2.tree := by
  obtain ⟨hran, hrec⟩ := run_ran hlog c
  rw [Scan.sourceFiles_eq, Scan.manifestFiles_eq] at hout
  rw [hrun] at hran
  generalize ((run c).run s).2 = s' at hran hrec hout ⊢
  obtain ⟨hroot, g', h', hp', hr, hreported⟩ := hran.of_some
  rw [hp] at hp'
  cases hp'
  have hw := hreported.written
  -- what the first run wrote is not read by the second
  have hfindings : Scan.findings c g h s'.tree = r := by
    rw [hr]
    refine Scan.findings_of_written hw c g h fun p hp loc hloc => ?_
    rintro ⟨q, hq, hqloc⟩
    exact hout p hp q hq loc hqloc hloc
  obtain ⟨hran', -⟩ := run_ran (s := s') (by rw [hrec]; exact hlog) c
  obtain ⟨answer, hagain, hanswer⟩ := hran'.of_accepted (hw.hasPath hroot) hp
  rw [hfindings] at hagain hanswer
  obtain ⟨rfl, htree⟩ := hagain.unique hreported.again
  exact ⟨hanswer, htree⟩

/-- The small workspace is found as it was, although both reports are new files
in it, one of them among the sources. -/
theorem small_run_again :
    ∃ r : Findings, r.size = 3 ∧ ((run exportConfig).run openSession).1 = .ok (some r) ∧
      ((run exportConfig).run ((run exportConfig).run openSession).2).1 = .ok (some r) ∧
      ((run exportConfig).run ((run exportConfig).run openSession).2).2.tree =
        ((run exportConfig).run openSession).2.tree := by
  have hrun : ((run exportConfig).run openSession).1 =
      .ok (some (Scan.findings exportConfig ⟨"*.rs"⟩ ⟨"Cargo.toml"⟩ openSession.tree)) := by
    decide +kernel
  have hout : ∀ p ∈ Scan.sourceFiles exportConfig ⟨"*.rs"⟩ ((run exportConfig).run openSession).2 ++
        Scan.manifestFiles exportConfig ⟨"Cargo.toml"⟩ ((run exportConfig).run openSession).2,
      ∀ q ∈ exportConfig.reportFile :: exportConfig.jsonReport.toList,
        ∀ loc ∈ (((run exportConfig).run openSession).2.tree.writesTo q).toOption,
          loc ∉ ((run exportConfig).run openSession).2.tree.stations p := by
    decide +kernel
  obtain ⟨hanswer, htree⟩ := run_again (g := ⟨"*.rs"⟩) (h := ⟨"Cargo.toml"⟩) rfl
    (by decide +kernel) hrun fun p hp q hq loc hloc => hout p hp q hq loc (by rw [hloc]; rfl)
  exact ⟨_, by decide +kernel, hrun, hanswer, htree⟩

end Diagnosis

end WorkspaceAudit

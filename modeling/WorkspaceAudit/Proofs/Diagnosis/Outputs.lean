/-
WorkspaceAudit/Proofs/Diagnosis/Outputs.lean

What a run writes.

`Reported` and `Ran` say what is answered and what is left of the files on each
way that writing the reports, and a whole run, can end.  They are told by the
files before: whether there is a root, whether the patterns are accepted, and
where the two writes go.  A run whose log goes to no file does as they say
(`run_ran`), and all that is said of its outputs is read off there.

The headline adds that a write that fails has changed nothing, that one that
does not fail changes a single file, and that no JSON is tried after the text
has failed.
-/
import WorkspaceAudit.Diagnosis
import WorkspaceAudit.Proofs.Scan.Blocks
import WorkspaceAudit.Proofs.Tree.Stations

namespace WorkspaceAudit

open FileTree

/-! ### Writing one report -/

/-- Without a log file the run writes a content to a path, or it says why not
and changes nothing. -/
def Writes (m : Run (Except AuditError Unit)) (p : Path) (b : Bytes) : Prop :=
  ∀ s : Session, s.recorder.file? = none →
    (∀ e, s.tree.writesTo p = .error e → m.run s = (.error (.reportUnwritable p e), s)) ∧
    ∀ loc, s.tree.writesTo p = .ok loc → (m.run s).1 = .ok () ∧
      (m.run s).2.tree = s.tree.write loc b ∧ (m.run s).2.recorder = s.recorder

theorem Run.run_write (p : Path) (b : Bytes) (s : Session) :
    (Run.write p b).run s = match s.tree.writesTo p with
      | .error e => (.error e, s)
      | .ok loc => (.ok (), { s with tree := s.tree.write loc b }) := by
  rw [Run.write, run_bind, StateT.run_get]
  dsimp only [pure]
  rw [writeFile_eq]
  rcases s.tree.writesTo p with e | loc <;> rfl

/-- After a write to a path the run only says how it went. -/
structure Tells (p : Path) (k : Except FileError Unit → Run (Except AuditError Unit)) :
    Prop where
  error : ∀ e, k (.error e) = pure (.error (.reportUnwritable p e))
  records : Records (k (.ok ()))
  ok : ∀ s, ((k (.ok ())).run s).1 = .ok ()

theorem Tells.writes {p : Path} {k : Except FileError Unit → Run (Except AuditError Unit)}
    (h : Tells p k) (b : Bytes) : Writes (Run.write p b >>= k) p b := by
  intro s hlog
  constructor
  · intro e he
    rw [Run.run_bind, Run.run_write, he]
    dsimp only
    rw [h.error]
    rfl
  · intro loc hloc
    rw [Run.run_bind, Run.run_write, hloc]
    obtain ⟨htree, hrec⟩ := h.records.onlyReads { s with tree := s.tree.write loc b } hlog
    exact ⟨h.ok _, htree, hrec⟩

namespace Report

theorem write_tells (f : Findings) (p : Path) :
    ∃ k, write f p = Run.write p (Bytes.ofText (text f)) >>= k ∧ Tells p k := by
  refine ⟨_, rfl, fun e => rfl, ?_, fun s => ?_⟩
  · -- one line more where nothing was found
    dsimp only
    split
    · exact (Records.say _ _).bind fun _ => (Records.say _ _).bind fun _ => .pure _
    · exact (Records.say _ _).bind fun _ => .pure _
  · dsimp only
    split <;> rfl

theorem writeJson_tells (f : Findings) (p : Path) :
    ∃ k, writeJson f p = Run.write p (Bytes.ofText (jsonText f)) >>= k ∧ Tells p k :=
  ⟨_, rfl, fun _ => rfl, (Records.say _ _).bind fun _ => .pure _, fun _ => rfl⟩

theorem write_writes (f : Findings) (p : Path) :
    Writes (write f p) p (Bytes.ofText (text f)) := by
  obtain ⟨k, hk, htells⟩ := write_tells f p
  rw [hk]
  exact htells.writes _

theorem writeJson_writes (f : Findings) (p : Path) :
    Writes (writeJson f p) p (Bytes.ofText (jsonText f)) := by
  obtain ⟨k, hk, htells⟩ := writeJson_tells f p
  rw [hk]
  exact htells.writes _

end Report

namespace Diagnosis

/-! ### Writing the reports -/

/-- What writing the reports answers, and how it leaves the files. -/
inductive Reported (c : Config) (f : Findings) (t : FileTree) :
    Except RunError Unit → FileTree → Prop
  | refused {e : FileError} : t.writesTo c.reportFile = .error e →
      Reported c f t (.error ⟨.reporting, .reportUnwritable c.reportFile e⟩) t
  | text {loc : Location} : t.writesTo c.reportFile = .ok loc → c.jsonReport = none →
      Reported c f t (.ok ()) (t.write loc (Bytes.ofText (Report.text f)))
  | unexported {loc : Location} {q : Path} {e : FileError} :
      t.writesTo c.reportFile = .ok loc → c.jsonReport = some q →
      (t.write loc (Bytes.ofText (Report.text f))).writesTo q = .error e →
      Reported c f t (.error ⟨.exporting, .reportUnwritable q e⟩)
        (t.write loc (Bytes.ofText (Report.text f)))
  | exported {loc loc' : Location} {q : Path} :
      t.writesTo c.reportFile = .ok loc → c.jsonReport = some q →
      (t.write loc (Bytes.ofText (Report.text f))).writesTo q = .ok loc' →
      Reported c f t (.ok ()) ((t.write loc (Bytes.ofText (Report.text f))).write loc'
        (Bytes.ofText (Report.jsonText f)))

variable {c : Config} {g h : Glob} {s : Session} {f : Findings}

theorem report_reported (hlog : s.recorder.file? = none) (c : Config) (f : Findings) :
    Reported c f s.tree ((report c f).run s).1 ((report c f).run s).2.tree ∧
      ((report c f).run s).2.recorder = s.recorder := by
  obtain ⟨hrefused, hwritten⟩ := Report.write_writes f c.reportFile s hlog
  rw [report, Run.run_bind]
  rcases hp : s.tree.writesTo c.reportFile with e | loc
  · rw [hrefused e hp]
    exact ⟨.refused hp, rfl⟩
  obtain ⟨hanswer, htree, hrec⟩ := hwritten loc hp
  rw [hanswer]
  generalize ((Report.write f c.reportFile).run s).2 = s' at htree hrec ⊢
  dsimp only
  rcases hq : c.jsonReport with - | q
  · -- the text is all that is wanted
    rw [Run.run_pure, htree]
    exact ⟨.text hp hq, hrec⟩
  -- the JSON is written to the files that the text has left
  obtain ⟨hrefused', hwritten'⟩ := Report.writeJson_writes f q s' (by rw [hrec]; exact hlog)
  rw [htree] at hrefused' hwritten'
  rw [Run.run_bind]
  rcases hq' : (s.tree.write loc (Bytes.ofText (Report.text f))).writesTo q with e | loc'
  · rw [hrefused' e hq']
    dsimp only
    rw [Run.run_pure, htree]
    exact ⟨.unexported hp hq hq', hrec⟩
  · obtain ⟨hanswer', htree', hrec'⟩ := hwritten' loc' hq'
    rw [hanswer']
    dsimp only
    rw [Run.run_pure, htree']
    exact ⟨.exported hp hq hq', hrec'.trans hrec⟩

/-! ### The run -/

/-- What a run answers, and how it leaves the files. -/
inductive Ran (c : Config) (t : FileTree) : Except RunError (Option Findings) → FileTree → Prop
  | rootless : t.hasPath c.root = false → Ran c t (.ok none) t
  | refused {e : AuditError} : t.hasPath c.root = true → Scan.patterns c = .error e →
      Ran c t (.error ⟨.preparing, e⟩) t
  | reported {g h : Glob} {answer : Except RunError Unit} {t' : FileTree} :
      t.hasPath c.root = true → Scan.patterns c = .ok (g, h) →
      Reported c (Scan.findings c g h t) t answer t' →
      Ran c t (answer.map fun _ => some (Scan.findings c g h t)) t'

namespace Ran

variable {t t' : FileTree} {answer : Except RunError (Option Findings)}

theorem of_rootless (hran : Ran c t answer t') (hroot : t.hasPath c.root = false) :
    answer = .ok none ∧ t' = t := by
  cases hran with
  | rootless => exact ⟨rfl, rfl⟩
  | refused hroot' => rw [hroot] at hroot'; cases hroot'
  | reported hroot' => rw [hroot] at hroot'; cases hroot'

theorem of_refused (hran : Ran c t answer t') (hroot : t.hasPath c.root = true) {e : AuditError}
    (hp : Scan.patterns c = .error e) : answer = .error ⟨.preparing, e⟩ ∧ t' = t := by
  cases hran with
  | rootless hroot' => rw [hroot] at hroot'; cases hroot'
  | refused _ hp' => rw [hp] at hp'; cases hp'; exact ⟨rfl, rfl⟩
  | reported _ hp' => rw [hp] at hp'; cases hp'

theorem of_accepted (hran : Ran c t answer t') (hroot : t.hasPath c.root = true)
    (hp : Scan.patterns c = .ok (g, h)) :
    ∃ reported, Reported c (Scan.findings c g h t) t reported t' ∧
      answer = reported.map fun _ => some (Scan.findings c g h t) := by
  cases hran with
  | rootless hroot' => rw [hroot] at hroot'; cases hroot'
  | refused _ hp' => rw [hp] at hp'; cases hp'
  | reported _ hp' hreported =>
    rw [hp] at hp'
    cases hp'
    exact ⟨_, hreported, rfl⟩

/-- Findings are answered where both reports were written. -/
theorem of_some (hran : Ran c t (.ok (some f)) t') :
    t.hasPath c.root = true ∧ ∃ g h, Scan.patterns c = .ok (g, h) ∧
      f = Scan.findings c g h t ∧ Reported c f t (.ok ()) t' := by
  generalize heq : (.ok (some f) : Except RunError (Option Findings)) = answer at hran
  cases hran with
  | rootless => cases heq
  | refused => cases heq
  | @reported g h reported _ hroot hp hreported =>
    cases reported with
    | error e => cases heq
    | ok =>
      cases heq
      exact ⟨hroot, g, h, hp, rfl, hreported⟩

end Ran

/-- A scan with accepted patterns answers findings and leaves the files. -/
theorem workspace_answers (hlog : s.recorder.file? = none)
    (hp : Scan.patterns c = .ok (g, h)) :
    ((Scan.workspace c).run s).1 = .ok (Scan.findings c g h s.tree) := by
  refine (Scan.workspace_run hp fun p _ loc hloc => ?_).1
  rw [hlog] at hloc
  cases hloc

/-- The session after the scan of a run. -/
def scanned (c : Config) (s : Session) : Session :=
  ((Scan.workspace c).run (s.record ⟨.info, "Starting diagnostic scan..."⟩)).2

theorem scanned_keeps (hlog : s.recorder.file? = none) (c : Config) :
    (scanned c s).tree = s.tree ∧ (scanned c s).recorder = s.recorder := by
  obtain ⟨htree, hrec⟩ := (Records.say .info "Starting diagnostic scan...").onlyReads s hlog
  rw [Run.run_say] at htree hrec
  obtain ⟨htree', hrec'⟩ := Scan.workspace_onlyReads c _ (by rw [hrec]; exact hlog)
  exact ⟨htree'.trans htree, hrec'.trans hrec⟩

/-- With a root and accepted patterns a run is a scan, and then the reports on
what it finds. -/
theorem run_eq_report (hlog : s.recorder.file? = none) (hroot : s.tree.hasPath c.root = true)
    (hp : Scan.patterns c = .ok (g, h)) :
    (run c).run s =
      (((report c (Scan.findings c g h s.tree)).run (scanned c s)).1.map fun _ =>
          some (Scan.findings c g h s.tree),
        ((report c (Scan.findings c g h s.tree)).run (scanned c s)).2) := by
  have htree := Session.tree_record hlog ⟨.info, "Starting diagnostic scan..."⟩
  have hscan := workspace_answers (s := s.record ⟨.info, "Starting diagnostic scan..."⟩)
    (by rw [Session.recorder_record]; exact hlog) hp
  rw [htree] at hscan
  rw [run, Run.run_bind, Run.run_say, Run.run_bind, Run.run_ask, htree, if_pos hroot,
    Run.run_bind, hscan]
  dsimp only
  rw [Run.run_bind, ← scanned]
  generalize (report c (Scan.findings c g h s.tree)).run (scanned c s) = r
  obtain ⟨answer, s'⟩ := r
  rcases answer with e | ⟨⟩ <;> rfl

/-- A run without a log file ends in one of these ways. -/
theorem run_ran (hlog : s.recorder.file? = none) (c : Config) :
    Ran c s.tree ((run c).run s).1 ((run c).run s).2.tree ∧
      ((run c).run s).2.recorder = s.recorder := by
  have hstart := Session.tree_record hlog ⟨.info, "Starting diagnostic scan..."⟩
  have hstart' := Session.recorder_record ⟨.info, "Starting diagnostic scan..."⟩ s
  cases hroot : s.tree.hasPath c.root with
  | false =>
    have hmissing : (run c).run s =
        (.ok none, (s.record ⟨.info, "Starting diagnostic scan..."⟩).record
          ⟨.error, "Directory " ++ c.root.shown ++ " does not exist"⟩) := by
      rw [run, Run.run_bind, Run.run_say, Run.run_bind, Run.run_ask, hstart, hroot]
      rfl
    rw [hmissing, Session.tree_record (by rw [hstart']; exact hlog), hstart,
      Session.recorder_record]
    exact ⟨.rootless hroot, hstart'⟩
  | true =>
    obtain ⟨htree, hrec⟩ := scanned_keeps hlog c
    rcases hp : Scan.patterns c with e | ⟨g, h⟩
    · have hrefused : (run c).run s = (.error ⟨.preparing, e⟩, scanned c s) := by
        rw [run, Run.run_bind, Run.run_say, Run.run_bind, Run.run_ask, hstart, if_pos hroot,
          Run.run_bind, scanned, Scan.workspace, hp]
        rfl
      rw [hrefused, htree]
      exact ⟨.refused hroot hp, hrec⟩
    · rw [run_eq_report hlog hroot hp]
      obtain ⟨hreported, hrec'⟩ := report_reported (by rw [hrec]; exact hlog) c
        (Scan.findings c g h s.tree)
      rw [htree] at hreported
      exact ⟨.reported hroot hp hreported, hrec'.trans hrec⟩

/-- Where the text cannot be written, nothing is done after the scan. -/
theorem run_of_unwritable (hlog : s.recorder.file? = none)
    (hroot : s.tree.hasPath c.root = true) (hp : Scan.patterns c = .ok (g, h)) {e : FileError}
    (he : s.tree.writesTo c.reportFile = .error e) :
    (run c).run s =
      (.error ⟨.reporting, .reportUnwritable c.reportFile e⟩, scanned c s) := by
  obtain ⟨htree, hrec⟩ := scanned_keeps hlog c
  obtain ⟨hrefused, -⟩ := Report.write_writes (Scan.findings c g h s.tree) c.reportFile
    (scanned c s) (by rw [hrec]; exact hlog)
  rw [htree] at hrefused
  rw [run_eq_report hlog hroot hp, report, Run.run_bind, hrefused e he]
  rfl

/-! ### What is written -/

/-- **What a run writes.**  Nothing, if there is no root or a pattern is refused.
Otherwise the scan of the files as they are finds `r`.  If the text cannot be
written, the run ends with the scan.  If only the JSON cannot, the one change is
the text.  If both can, the changes are the files that the two paths lead to:
each holds the whole of what was written there and no more, and if it is one
file, then that is the JSON. -/
theorem run_writes (c : Config) (s : Session) (hlog : s.recorder.file? = none) :
    (s.tree.hasPath c.root = false →
      ((run c).run s).1 = .ok none ∧ ((run c).run s).2.tree = s.tree) ∧
    (s.tree.hasPath c.root = true → ∀ e, Scan.patterns c = .error e →
      ((run c).run s).1 = .error ⟨.preparing, e⟩ ∧ ((run c).run s).2.tree = s.tree) ∧
    (s.tree.hasPath c.root = true → ∀ g h, Scan.patterns c = .ok (g, h) →
      ∃ r, ((Scan.workspace c).run s).1 = .ok r ∧
        (∀ e, s.tree.writesTo c.reportFile = .error e →
          (run c).run s =
              (.error ⟨.reporting, .reportUnwritable c.reportFile e⟩, scanned c s) ∧
            ((run c).run s).2.tree = s.tree) ∧
        ∀ loc, s.tree.writesTo c.reportFile = .ok loc →
          (c.jsonReport = none →
            ((run c).run s).1 = .ok (some r) ∧
              Written (· = loc) s.tree ((run c).run s).2.tree ∧
              ((run c).run s).2.tree.Holds loc (Bytes.ofText (Report.text r))) ∧
          ∀ q, c.jsonReport = some q →
            (∀ e, s.tree.writesTo q = .error e →
              (∃ e', ((run c).run s).1 = .error ⟨.exporting, .reportUnwritable q e'⟩) ∧
                Written (· = loc) s.tree ((run c).run s).2.tree ∧
                ((run c).run s).2.tree.Holds loc (Bytes.ofText (Report.text r))) ∧
            ∀ loc', s.tree.writesTo q = .ok loc' →
              ((run c).run s).1 = .ok (some r) ∧
                Written (fun l => l = loc ∨ l = loc') s.tree ((run c).run s).2.tree ∧
                ((run c).run s).2.tree.Holds loc' (Bytes.ofText (Report.jsonText r)) ∧
                (loc ≠ loc' →
                  ((run c).run s).2.tree.Holds loc (Bytes.ofText (Report.text r)))) := by
  obtain ⟨hran, -⟩ := run_ran hlog c
  refine ⟨hran.of_rootless, fun hroot e hp => hran.of_refused hroot hp, ?_⟩
  intro hroot g h hp
  refine ⟨Scan.findings c g h s.tree, workspace_answers hlog hp, ?_, ?_⟩
  · intro e he
    rw [run_of_unwritable hlog hroot hp he]
    exact ⟨rfl, (scanned_keeps hlog c).1⟩
  intro loc hloc
  obtain ⟨reported, hreported, hanswer⟩ := hran.of_accepted hroot hp
  rw [hanswer]
  generalize ((run c).run s).2.tree = t' at hreported ⊢
  generalize Scan.findings c g h s.tree = r at hreported ⊢
  -- the text is written, and no write elsewhere takes it away
  have htakes : s.tree.Takes loc := takes_of_writesTo hloc
  have hwritten : Written (· = loc) s.tree _ := htakes.written (Bytes.ofText (Report.text r))
  cases hreported with
  | refused he => rw [hloc] at he; cases he
  | text hloc' hq =>
    rw [hloc] at hloc'
    cases hloc'
    refine ⟨fun _ => ⟨rfl, hwritten, htakes.holds _⟩, ?_⟩
    intro q hq'
    rw [hq] at hq'
    cases hq'
  | unexported hloc' hq he =>
    rw [hloc] at hloc'
    cases hloc'
    refine ⟨fun hnone => absurd (hq.symm.trans hnone) (by simp), ?_⟩
    intro q' hq'
    rw [hq] at hq'
    cases hq'
    refine ⟨fun _ _ => ⟨⟨_, rfl⟩, hwritten, htakes.holds _⟩, ?_⟩
    intro loc' hjson
    rw [← hwritten.writesTo_eq_ok_iff, he] at hjson
    cases hjson
  | exported hloc' hq hjson =>
    rw [hloc] at hloc'
    cases hloc'
    refine ⟨fun hnone => absurd (hq.symm.trans hnone) (by simp), ?_⟩
    intro q' hq'
    rw [hq] at hq'
    cases hq'
    constructor
    · intro e he
      rw [hwritten.writesTo_eq_ok_iff, he] at hjson
      cases hjson
    · intro loc' hjson'
      rw [← hwritten.writesTo_eq_ok_iff, hjson] at hjson'
      cases hjson'
      have htakes' := takes_of_writesTo hjson
      have hwritten' := htakes'.written (Bytes.ofText (Report.jsonText r))
      refine ⟨rfl, ?_, htakes'.holds _, fun hne => ?_⟩
      · exact (hwritten.mono fun _ => .inl).trans (hwritten'.mono fun _ => .inr)
      · exact (htakes.holds _).of_written hwritten' hne

/-- The small workspace with both reports, the JSON among the sources. -/
def exportConfig : Config :=
  { Scan.smallConfig with
    reportFile := Bytes.ofText "report.txt", jsonReport := some (Bytes.ofText "src/report.json") }

/-- Where the text goes. -/
def smallReport : Location :=
  [⟨Bytes.ofText "report.txt", by decide⟩]

/-- Where the JSON goes, beside the source. -/
def smallExport : Location :=
  Scan.smallSource.dropLast ++ [⟨Bytes.ofText "report.json", by decide⟩]

/-- A session on the small workspace, with an open brace in its source and no
log. -/
def openSession : Session :=
  .on (Scan.smallTree (Bytes.ofText "\x7b") Scan.oldManifest)

/-- Both reports are new files, each with what the scan has found. -/
theorem small_run_writes :
    openSession.tree.at? smallReport = none ∧ openSession.tree.at? smallExport = none ∧
      ∃ r, ((Scan.workspace exportConfig).run openSession).1 = .ok r ∧
        ((run exportConfig).run openSession).1 = .ok (some r) ∧
        Written (fun l => l = smallReport ∨ l = smallExport) openSession.tree
          ((run exportConfig).run openSession).2.tree ∧
        ((run exportConfig).run openSession).2.tree.Holds smallReport
          (Bytes.ofText (Report.text r)) ∧
        ((run exportConfig).run openSession).2.tree.Holds smallExport
          (Bytes.ofText (Report.jsonText r)) := by
  refine ⟨rfl, rfl, ?_⟩
  obtain ⟨-, -, haccepted⟩ := run_writes exportConfig openSession rfl
  obtain ⟨r, hr, -, hwrites⟩ :=
    haccepted (by decide +kernel) ⟨"*.rs"⟩ ⟨"Cargo.toml"⟩ (by decide +kernel)
  obtain ⟨-, hexports⟩ := hwrites smallReport (by decide +kernel)
  obtain ⟨-, hboth⟩ := hexports (Bytes.ofText "src/report.json") rfl
  obtain ⟨hanswer, hwritten, hjson, htext⟩ := hboth smallExport (by decide +kernel)
  exact ⟨r, hr, hanswer, hwritten, htext (by decide), hjson⟩

end Diagnosis

end WorkspaceAudit

/-
WorkspaceAudit/Proofs/Diagnosis/Logged.lean

A run whose log goes to one of the files.

`Leaves m log t a t'` says that on the files `t`, with a log that goes to `log`,
the run `m` answers `a` and leaves the files `t'` but for the log.  Unlike what
`Logs` says, files may be written, one after another: each write goes to where it
would go without the log, since the log changes contents alone.

So a run that reads no file of the log does what it does without one
(`run_leaves`).  And it does the same, up to what is said of a failure, on files
where that of the log was not yet made (`Ran.of_written`).
-/
import WorkspaceAudit.Proofs.Diagnosis.Repeat
import WorkspaceAudit.Proofs.Tree.Alongside

namespace WorkspaceAudit

open FileTree

/-! ### What a run leaves -/

/-- On these files, with a log that goes to `log`, a run answers `a` and leaves the
files `t'` but for the file of the log. -/
def Leaves {α : Type} (m : Run α) (log : Option Location) (t : FileTree) (a : α)
    (t' : FileTree) : Prop :=
  ∀ s : Session, s.recorder.file? = log → t.SameBut (· ∈ log) s.tree →
    (m.run s).1 = a ∧ t'.SameBut (· ∈ log) (m.run s).2.tree ∧
      (m.run s).2.recorder = s.recorder

namespace Leaves

variable {α β : Type} {log : Option Location} {t t' t'' : FileTree}

theorem of_logs {m : Run α} {a : α} {ls : List Log.Line} (h : Logs m log t a ls) :
    Leaves m log t a t := by
  intro s hlog hs
  obtain ⟨ha, htree, hrec, -⟩ := h s hlog hs
  exact ⟨ha, htree, hrec⟩

theorem of_records {m : Run α} {a : α} (h : Records m) (ha : ∀ s, (m.run s).1 = a) :
    Leaves m log t a t := by
  intro s hlog hs
  subst hlog
  obtain ⟨htree, hrec⟩ := h.sameBut s
  exact ⟨ha s, hs.trans htree, hrec⟩

theorem pure (a : α) : Leaves (pure a) log t a t :=
  .of_logs (.pure a)

theorem bind {m : Run α} {k : α → Run β} {a : α} {b : β} (hm : Leaves m log t a t')
    (hk : Leaves (k a) log t' b t'') : Leaves (m >>= k) log t b t'' := by
  intro s hlog hs
  obtain ⟨ha, htree, hrec⟩ := hm s hlog hs
  obtain ⟨hb, htree', hrec'⟩ := hk (m.run s).2 (by rw [hrec]; exact hlog) htree
  rw [Run.run_bind, ha]
  exact ⟨hb, htree', hrec'.trans hrec⟩

/-- A write that fails leaves the files. -/
theorem write_error {p : Path} {b : Bytes} {e : FileError} (h : t.writesTo p = .error e) :
    Leaves (Run.write p b) log t (.error e) t := by
  intro s hlog hs
  rw [Run.run_write, hs.writesTo_eq p, h]
  exact ⟨rfl, hs, rfl⟩

/-- A write that goes to a file leaves its content there. -/
theorem write {p : Path} {b : Bytes} {loc : Location} (h : t.writesTo p = .ok loc) :
    Leaves (Run.write p b) log t (.ok ()) (t.write loc b) := by
  intro s hlog hs
  rw [Run.run_write, hs.writesTo_eq p, h]
  exact ⟨rfl, hs.write h b, rfl⟩

section Tells

variable {p : Path} {k : Except FileError Unit → Run (Except AuditError Unit)}

theorem unwritten (hk : Tells p k) {b : Bytes} {e : FileError} (h : t.writesTo p = .error e) :
    Leaves (Run.write p b >>= k) log t (.error (.reportUnwritable p e)) t := by
  refine (write_error h).bind ?_
  rw [hk.error]
  exact .pure _

theorem written (hk : Tells p k) {b : Bytes} {loc : Location} (h : t.writesTo p = .ok loc) :
    Leaves (Run.write p b >>= k) log t (.ok ()) (t.write loc b) :=
  (write h).bind (.of_records hk.records hk.ok)

end Tells

end Leaves

namespace Diagnosis

variable {c : Config} {f : Findings} {log : Option Location} {t t' u : FileTree}

/-- The reports are written as they are without a log. -/
theorem report_leaves {answer : Except RunError Unit} (h : Reported c f t answer t') :
    Leaves (report c f) log t answer t' := by
  obtain ⟨k, hk, htells⟩ := Report.write_tells f c.reportFile
  rw [report, hk]
  cases h with
  | refused he => exact (Leaves.unwritten htells he).bind (.pure _)
  | text hloc hq =>
    refine (Leaves.written htells hloc).bind ?_
    rw [hq]
    exact .pure _
  | @unexported loc q e hloc hq he =>
    obtain ⟨k', hk', htells'⟩ := Report.writeJson_tells f q
    refine (Leaves.written htells hloc).bind ?_
    rw [hq]
    dsimp only
    rw [hk']
    exact (Leaves.unwritten htells' he).bind (.pure _)
  | @exported loc loc' q hloc hq hloc' =>
    obtain ⟨k', hk', htells'⟩ := Report.writeJson_tells f q
    refine (Leaves.written htells hloc).bind ?_
    rw [hq]
    dsimp only
    rw [hk']
    exact (Leaves.written htells' hloc').bind (.pure _)

/-- No file of a scan is the file of the log. -/
def ReadsApart (c : Config) (t : FileTree) (log : Option Location) : Prop :=
  ∀ g h, Scan.patterns c = .ok (g, h) →
    ∀ p ∈ t.files c.sourceRoot g ++ t.files c.root h, t.Apart log p

/-- **A run does as it does without a log**, if it does not read the file of the
log. -/
theorem run_leaves {answer : Except RunError (Option Findings)} (h : Ran c t answer t')
    (hapart : ReadsApart c t log) : Leaves (run c) log t answer t' := by
  have hask : ∀ b, t.hasPath c.root = b →
      Logs (Run.ask (·.hasPath c.root)) log t b [] := by
    rintro _ rfl
    exact .ask fun t' ht => (ht.similar.hasPath_eq c.root).symm
  refine (Leaves.of_logs (.say _ _)).bind ?_
  cases h with
  | rootless hroot =>
    refine (Leaves.of_logs (hask _ hroot)).bind ?_
    exact (Leaves.of_logs (.say _ _)).bind (.pure _)
  | refused hroot hp =>
    refine (Leaves.of_logs (hask _ hroot)).bind ?_
    rw [if_pos rfl, Scan.workspace, hp]
    exact (Leaves.pure _).bind (.pure _)
  | @reported g h answer _ hroot hp hreported =>
    refine (Leaves.of_logs (hask _ hroot)).bind ?_
    rw [if_pos rfl]
    refine (Leaves.of_logs (Scan.workspace_logs hp (hapart g h hp))).bind ?_
    refine (report_leaves hreported).bind ?_
    rcases answer with e | ⟨⟩
    · exact .pure _
    · exact .pure _

/-! ### Before the file of the log was made -/

variable {S : Location → Prop}

/-- On files with some more that were written, the reports are written as well, or
are not for some other reason. -/
theorem Reported.of_written {answer : Except RunError Unit} (h : Reported c f t answer t')
    (hw : Written S t u) :
    ∃ answer' u', Reported c f u answer' u' ∧ answer'.toOption = answer.toOption ∧
      Written S t' u' := by
  cases h with
  | refused he =>
    obtain ⟨e', he'⟩ := hw.exists_error he
    exact ⟨_, u, .refused he', rfl, hw⟩
  | text hloc hq =>
    exact ⟨_, _, .text (hw.writesTo_eq_ok_iff.mpr hloc) hq, rfl, hw.write hloc _⟩
  | unexported hloc hq he =>
    have hw' := hw.write hloc (Bytes.ofText (Report.text f))
    obtain ⟨e', he'⟩ := hw'.exists_error he
    exact ⟨_, _, .unexported (hw.writesTo_eq_ok_iff.mpr hloc) hq he', rfl, hw'⟩
  | exported hloc hq hloc' =>
    have hw' := hw.write hloc (Bytes.ofText (Report.text f))
    exact ⟨_, _, .exported (hw.writesTo_eq_ok_iff.mpr hloc) hq (hw'.writesTo_eq_ok_iff.mpr hloc'),
      rfl, hw'.write hloc' _⟩

/-- **A run comes to the same on files with some more that were written**, if it
comes to none of these. -/
theorem Ran.of_written {answer : Except RunError (Option Findings)} (h : Ran c t answer t')
    (hw : Written S t u) (hroot : u.Aside S c.root)
    (hread : ∀ g h, Scan.patterns c = .ok (g, h) →
      ∀ p ∈ u.files c.sourceRoot g ++ u.files c.root h, u.Aside S p) :
    ∃ answer' u', Ran c u answer' u' ∧ answer'.toOption = answer.toOption ∧
      Written S t' u' := by
  have hpath := hw.hasPath_eq hroot
  cases h with
  | rootless hmissing => exact ⟨_, u, .rootless (hpath.trans hmissing), rfl, hw⟩
  | refused hthere hp => exact ⟨_, u, .refused (hpath.trans hthere) hp, rfl, hw⟩
  | @reported g h answer _ hthere hp hreported =>
    have hfindings := Scan.findings_of_written hw c g h (hread g h hp)
    obtain ⟨answer', u', hreported', hanswer, hw'⟩ := hreported.of_written hw
    rw [← hfindings] at hreported'
    refine ⟨_, u', .reported (hpath.trans hthere) hp hreported', ?_, hw'⟩
    rw [hfindings]
    rcases answer with e | ⟨⟩ <;> rcases answer' with e' | ⟨⟩
    · rfl
    · cases hanswer
    · cases hanswer
    · rfl

end Diagnosis

end WorkspaceAudit

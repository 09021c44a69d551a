/-
WorkspaceAudit/Proofs/Diagnosis/Rootless.lean

A run whose root is no directory.

Two looks are taken at the root.  A run asks whether anything is there before
it does anything else; a search asks for a directory.  They agree on every root
that leads to nothing: one that is missing, a link to nothing or to itself, a
path through a file.  Then the run ends at once and writes nothing.

They differ where a file or a device is the root (`file_or_device`).  The run
goes on, its searches find nothing there, and what it reports is that nothing
was found.  The headline tells the two cases apart, and the last section has a
file as the root.
-/
import WorkspaceAudit.Proofs.Diagnosis.Outputs

namespace WorkspaceAudit

open FileTree

/-! ### What a root may be -/

namespace FileTree

variable {t : FileTree} {p : Path} {x : Node}

/-- A path that is followed to its end leads to a file or a device, if it leads
to anything but a directory. -/
theorem file_or_device (hx : t.node? existing p = .ok x) (hdir : t.isDirectory p = false) :
    (∃ b, x = .file b) ∨ ∃ d, x = .device d := by
  obtain ⟨loc, hloc, hat⟩ := node?_eq_ok_iff.mp hx
  have hends : t.Ends (t.resolve existing p) := resolve_ends rfl p
  rw [hloc] at hends
  cases hends with
  | @found _ y hat' hlink =>
    rw [hat, Option.some.injEq] at hat'
    subst hat'
    cases x with
    | file b => exact .inl ⟨b, rfl⟩
    | device d => exact .inr ⟨d, rfl⟩
    | link target => exact absurd rfl (hlink target)
    | dir es =>
      have hdir' : t.isDirectory p = true := isDirectory_iff.mpr ⟨es, hx⟩
      rw [hdir] at hdir'
      cases hdir'

theorem hasPath_of_error {e : FileError} (h : t.node? existing p = .error e) :
    t.hasPath p = false := by
  rw [hasPath, h]
  rfl

theorem hasPath_of_ok (h : t.node? existing p = .ok x) : t.hasPath p = true := by
  rw [hasPath, h]
  rfl

end FileTree

namespace Diagnosis

variable {c : Config} {s : Session}

/-- A run that finds something at its root does not end for want of one. -/
theorem Ran.ne_none {t t' : FileTree} {answer : Except RunError (Option Findings)}
    (hran : Ran c t answer t') (hroot : t.hasPath c.root = true) : answer ≠ .ok none := by
  cases hran with
  | rootless hroot' =>
    rw [hroot] at hroot'
    cases hroot'
  | refused => simp
  | @reported g h answer _ _ _ _ => cases answer <;> simp [Except.map]

/-- Where neither pass has a directory, nothing is found. -/
theorem findings_of_no_directory {g h : Glob} {t : FileTree}
    (hsource : t.isDirectory c.sourceRoot = false) (hroot : t.isDirectory c.root = false) :
    Scan.findings c g h t = .empty := by
  rw [Scan.findings, files_of_not_isDirectory hsource, files_of_not_isDirectory hroot]
  rfl

/-- **A run whose root is no directory** ends at once and changes nothing, if
the root leads to nothing, for whatever reason.  A file or a device as the root
is taken for one: no manifest is found there, and yet the run does not end for
want of a root, and if the sources have no directory either then what it answers
is that nothing was found. -/
theorem run_rootless (c : Config) (s : Session) (hlog : s.recorder.file? = none)
    (hdir : s.tree.isDirectory c.root = false) :
    (∀ e, s.tree.node? existing c.root = .error e →
      ((run c).run s).1 = .ok none ∧ ((run c).run s).2.tree = s.tree) ∧
    ∀ x, s.tree.node? existing c.root = .ok x →
      ((∃ b, x = .file b) ∨ ∃ d, x = .device d) ∧
      (∀ h, ((Scan.find c.root h).run s).1 = []) ∧
      ((run c).run s).1 ≠ .ok none ∧
      (s.tree.isDirectory c.sourceRoot = false →
        ∀ f, ((run c).run s).1 = .ok (some f) → f.isEmpty = true) := by
  obtain ⟨hran, -⟩ := run_ran hlog c
  constructor
  · intro e he
    exact hran.of_rootless (hasPath_of_error he)
  · intro x hx
    refine ⟨file_or_device hx hdir, ?_, hran.ne_none (hasPath_of_ok hx), ?_⟩
    · intro h
      rw [Scan.find_answer, files_of_not_isDirectory hdir]
    · intro hsource f hf
      rw [hf] at hran
      obtain ⟨-, g, h, -, hfound, -⟩ := hran.of_some
      rw [hfound, findings_of_no_directory hsource hdir]
      rfl

/-! ### Roots that are missing, broken or a file -/

/-- A link to nothing, a link to itself, a file and a link to the file. -/
def rootsTree : FileTree :=
  ⟨[(⟨Bytes.ofText "gone", by decide⟩, .link (Bytes.ofText "nothing")),
    (⟨Bytes.ofText "loop", by decide⟩, .link (Bytes.ofText "loop")),
    (⟨Bytes.ofText "notes", by decide⟩, .file (Bytes.ofText "to do")),
    (⟨Bytes.ofText "link", by decide⟩, .link (Bytes.ofText "notes"))], []⟩

/-- A run with this root and no other configuration. -/
def runAt (root : String) : Except RunError (Option Findings) × Session :=
  (run { Config.initial with root := Bytes.ofText root }).run (.on rootsTree)

/-- No report is written where the root is missing, a link to nothing or to
itself, or behind a file. -/
theorem run_broken_roots :
    ((runAt "absent").1 = .ok none ∧ (runAt "absent").2.tree = rootsTree) ∧
      ((runAt "gone").1 = .ok none ∧ (runAt "gone").2.tree = rootsTree) ∧
      ((runAt "loop").1 = .ok none ∧ (runAt "loop").2.tree = rootsTree) ∧
      (runAt "notes/x").1 = .ok none ∧ (runAt "notes/x").2.tree = rootsTree := by
  have key : ∀ root, rootsTree.isDirectory (Bytes.ofText root) = false →
      rootsTree.hasPath (Bytes.ofText root) = false →
      (runAt root).1 = .ok none ∧ (runAt root).2.tree = rootsTree := by
    intro root hdir hpath
    -- where there is no path, a look at it fails
    have herror : ∃ e, rootsTree.node? existing (Bytes.ofText root) = .error e := by
      rcases h : rootsTree.node? existing (Bytes.ofText root) with e | x
      · exact ⟨e, rfl⟩
      · rw [hasPath_of_ok h] at hpath
        cases hpath
    obtain ⟨e, he⟩ := herror
    let c : Config := { Config.initial with root := Bytes.ofText root }
    exact (run_rootless c (.on rootsTree) rfl hdir).1 e he
  refine ⟨?_, ?_, ?_, ?_⟩ <;> apply key <;> decide +kernel

/-- A file as the root, or a link to one, is no directory, and yet a report is
written that nothing was found. -/
theorem file_root_reported :
    (rootsTree.isDirectory (Bytes.ofText "notes") = false ∧
        (runAt "notes").1 = .ok (some .empty) ∧
        (runAt "notes").2.tree.readText Config.initial.reportFile = .ok (Report.text .empty)) ∧
      rootsTree.isDirectory (Bytes.ofText "link") = false ∧
        (runAt "link").1 = .ok (some .empty) ∧
        (runAt "link").2.tree.readText Config.initial.reportFile = .ok (Report.text .empty) := by
  decide +kernel

end Diagnosis

end WorkspaceAudit

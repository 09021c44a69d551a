/-
WorkspaceAudit/Proofs/Report/Lines.lean

How many lines of a report are of files, and how many of issues.

A line is told by what it starts with.  In the report on findings without line
feeds the path of each file and each issue have a line of their own, and no other
line starts in the same way, so counting the lines counts what was found
(`countP_lines_text`).
-/
import WorkspaceAudit.Proofs.Report.Decoding

namespace WorkspaceAudit.Report

/-- Whether a line of the text starts as that of a file does. -/
def startsFile (line : List Char) : Bool :=
  "File: ".toList.isPrefixOf line

/-- Whether a line of the text starts as that of an issue does. -/
def startsIssue (line : List Char) : Bool :=
  "  - ".toList.isPrefixOf line

/-- The lines of a text. -/
def lines (text : String) : List (List Char) :=
  text.toList.splitOn '\n'

theorem startsFile_path (path : List Char) :
    startsFile ("File: ".toList ++ path) = true ∧ startsIssue ("File: ".toList ++ path) = false :=
  ⟨rfl, rfl⟩

theorem startsIssue_issueMark (issue : Issue) :
    startsIssue (issueMark issue) = true ∧ startsFile (issueMark issue) = false :=
  ⟨rfl, rfl⟩

/-- A file has one line of its path and one for each issue. -/
theorem countP_fileMarks (file : FileIssues) :
    (fileMarks file).countP startsFile = 1 ∧
      (fileMarks file).countP startsIssue = file.issues.length := by
  have hfile : (file.issues.map issueMark).countP startsFile = 0 := by
    apply List.countP_eq_zero.mpr
    intro line hline
    obtain ⟨issue, -, rfl⟩ := List.mem_map.mp hline
    simp [startsIssue_issueMark issue]
  have hissue : (file.issues.map issueMark).countP startsIssue = file.issues.length := by
    have hlength : file.issues.length = (file.issues.map issueMark).length := by simp
    rw [hlength]
    apply List.countP_eq_length.mpr
    intro line hline
    obtain ⟨issue, -, rfl⟩ := List.mem_map.mp hline
    exact (startsIssue_issueMark issue).1
  obtain ⟨hpath, hpath'⟩ := startsFile_path file.path.toList
  rw [fileMarks]
  constructor
  · rw [List.countP_cons_of_neg (by decide), List.countP_cons_of_pos hpath, hfile]
  · rw [List.countP_cons_of_neg (by decide), List.countP_cons_of_neg (Bool.eq_false_iff.mp hpath'), hissue]

theorem countP_files (files : List FileIssues) :
    (files.flatMap fileMarks).countP startsFile = files.length ∧
      (files.flatMap fileMarks).countP startsIssue =
        files.foldr (fun file n => file.issues.length + n) 0 := by
  induction files with
  | nil => exact ⟨rfl, rfl⟩
  | cons file files ih =>
    obtain ⟨hfile, hissue⟩ := countP_fileMarks file
    rw [List.flatMap_cons, List.countP_append, List.countP_append, ih.1, ih.2, hfile, hissue]
    constructor
    · rw [List.length_cons, Nat.add_comm]
    · rfl

/-- What is around the files counts as neither. -/
theorem countP_marks (f : Findings) :
    (marks f).countP startsFile = f.size ∧ (marks f).countP startsIssue = f.total := by
  have hbody : (if f.isEmpty then [nothingFound.toList]
        else f.files.flatMap fileMarks).countP startsFile = f.size ∧
      (if f.isEmpty then [nothingFound.toList]
        else f.files.flatMap fileMarks).countP startsIssue = f.total := by
    split
    · next hempty =>
      have hnone : f.files = [] := List.isEmpty_iff.mp hempty
      rw [Findings.size, Findings.total, hnone]
      decide
    · exact countP_files f.files
  obtain ⟨hfile, hissue⟩ := hbody
  rw [marks]
  constructor
  · rw [List.countP_cons_of_neg (by decide), List.countP_cons_of_neg (by decide),
      List.countP_cons_of_neg (by decide), hfile]
  · rw [List.countP_cons_of_neg (by decide), List.countP_cons_of_neg (by decide),
      List.countP_cons_of_neg (by decide), hissue]

/-- The report on findings without line feeds has a line for each file and each
issue. -/
theorem countP_lines_text {f : Findings} (h : f.OneLine) :
    (lines (text f)).countP startsFile = f.size ∧
      (lines (text f)).countP startsIssue = f.total := by
  obtain ⟨hfile, hissue⟩ := countP_marks f
  rw [lines, splitOn_text h, List.countP_append, List.countP_append, hfile, hissue]
  exact ⟨rfl, rfl⟩

end WorkspaceAudit.Report

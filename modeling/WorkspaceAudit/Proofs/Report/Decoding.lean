/-
WorkspaceAudit/Proofs/Report/Decoding.lean

The text of a report tells what was found.

Nothing in a report is escaped, so it can be read back only as long as no path
and no issue has a line feed (`Findings.OneLine`).  Then every line shows by what
it starts with what it is: the path of a file, an issue, or neither.  A path or an
issue that starts in the same way does no harm, since it stands after the mark of
its line.

`Report.findings` reads the lines of a text from the last one upwards, so that
the issues of a file are known when its path comes.  It reads every report back
(`findings_text`), and so no two findings have the same report.
-/
import WorkspaceAudit.Report

namespace WorkspaceAudit

/-- No path and no issue has a line feed. -/
def Findings.OneLine (f : Findings) : Prop :=
  ∀ file ∈ f.files, '\n' ∉ file.path.toList ∧ ∀ issue ∈ file.issues, '\n' ∉ issue.toList

namespace Report

/-! ### Reading lines -/

/-- Adds a line to what was read of the lines after it: the issues whose file has
not come yet, and the files. -/
def readLine (line : List Char) (read : List Issue × List FileIssues) :
    List Issue × List FileIssues :=
  match line with
  | ' ' :: ' ' :: '-' :: ' ' :: issue => (String.ofList issue :: read.1, read.2)
  | 'F' :: 'i' :: 'l' :: 'e' :: ':' :: ' ' :: path =>
    if h : read.1 = [] then read else ([], ⟨String.ofList path, read.1, h⟩ :: read.2)
  | _ => read

/-- What was read of lines. -/
def readLines (lines : List (List Char)) : List Issue × List FileIssues :=
  lines.foldr readLine ([], [])

/-- The findings that a text reports. -/
def findings (text : String) : Findings :=
  ⟨(readLines (text.toList.splitOn '\n')).2⟩

/-! ### The lines of a report -/

/-- The line of an issue, without its line feed. -/
def issueMark (issue : Issue) : List Char :=
  ' ' :: ' ' :: '-' :: ' ' :: issue.toList

/-- The lines of a file, without their line feeds. -/
def fileMarks (file : FileIssues) : List (List Char) :=
  [] :: ("File: ".toList ++ file.path.toList) :: file.issues.map issueMark

/-- The lines of a report, without their line feeds. -/
def marks (f : Findings) : List (List Char) :=
  title.toList :: List.replicate 40 '=' :: [] ::
    (if f.isEmpty then [nothingFound.toList] else f.files.flatMap fileMarks)

/-- Lines with a line feed after each. -/
def feed (lines : List (List Char)) : List Char :=
  lines.flatMap (· ++ ['\n'])

theorem feed_cons (line : List Char) (lines : List (List Char)) :
    feed (line :: lines) = line ++ '\n' :: feed lines := by
  rw [feed, List.flatMap_cons, List.append_assoc, List.singleton_append, feed]

theorem feed_issueMark (issues : List Issue) :
    feed (issues.map issueMark) = issues.flatMap issueLine := by
  rw [feed, List.flatMap_map]
  rfl

theorem feed_fileMarks (file : FileIssues) : feed (fileMarks file) = fileLines file := by
  rw [fileMarks, feed_cons, feed_cons, feed_issueMark]
  rfl

theorem feed_files (files : List FileIssues) :
    feed (files.flatMap fileMarks) = files.flatMap fileLines := by
  induction files with
  | nil => rfl
  | cons file files ih =>
    rw [List.flatMap_cons, List.flatMap_cons, ← ih, ← feed_fileMarks, feed, List.flatMap_append]
    rfl

theorem feed_marks (f : Findings) : feed (marks f) = heading ++ body f := by
  have hbody : feed (if f.isEmpty then [nothingFound.toList] else f.files.flatMap fileMarks) =
      body f := by
    rw [body]
    split
    · rfl
    · exact feed_files f.files
  rw [marks, feed_cons, feed_cons, feed_cons, hbody]
  simp [heading]

/-- Lines that were put together come apart again. -/
theorem splitOn_feed {lines : List (List Char)} (h : ∀ line ∈ lines, '\n' ∉ line) :
    (feed lines).splitOn '\n' = lines ++ [[]] := by
  induction lines with
  | nil => rfl
  | cons line lines ih =>
    rw [List.forall_mem_cons] at h
    rw [feed_cons, List.splitOn_append_cons_self_of_not_mem h.1, ih h.2, List.cons_append]

theorem not_mem_marks {f : Findings} (h : f.OneLine) : ∀ line ∈ marks f, '\n' ∉ line := by
  have hfile : ∀ file ∈ f.files, ∀ line ∈ fileMarks file, '\n' ∉ line := by
    intro file hmem line hline
    obtain ⟨hpath, hissues⟩ := h file hmem
    simp only [fileMarks, List.mem_cons, List.mem_map] at hline
    rcases hline with rfl | rfl | ⟨issue, hissue, rfl⟩
    · exact List.not_mem_nil
    · simp [hpath]
    · simp [issueMark, hissues issue hissue]
  have hheading : '\n' ∉ title.toList ∧ '\n' ∉ List.replicate 40 '=' ∧
      '\n' ∉ nothingFound.toList := by decide
  intro line hline
  simp only [marks, List.mem_cons] at hline
  rcases hline with rfl | rfl | rfl | hline
  · exact hheading.1
  · exact hheading.2.1
  · exact List.not_mem_nil
  · split at hline
    · rw [List.mem_singleton.mp hline]
      exact hheading.2.2
    · obtain ⟨file, hmem, hline⟩ := List.mem_flatMap.mp hline
      exact hfile file hmem line hline

/-! ### Reading a report -/

theorem readLine_issueMark (issue : Issue) (read : List Issue × List FileIssues) :
    readLine (issueMark issue) read = (issue :: read.1, read.2) := by
  rw [issueMark, readLine, String.ofList_toList]

/-- The issues of a file are there when its path comes. -/
theorem foldr_issueMark (issues : List Issue) (files : List FileIssues) :
    (issues.map issueMark).foldr readLine ([], files) = (issues, files) := by
  induction issues with
  | nil => rfl
  | cons issue issues ih => rw [List.map_cons, List.foldr_cons, ih, readLine_issueMark]

/-- The lines of a file add the file. -/
theorem foldr_fileMarks (file : FileIssues) (files : List FileIssues) :
    (fileMarks file).foldr readLine ([], files) = ([], file :: files) := by
  have hpath : readLine ("File: ".toList ++ file.path.toList) (file.issues, files) =
      ([], file :: files) := by
    show (if h : file.issues = [] then _ else
      (([], ⟨String.ofList file.path.toList, file.issues, h⟩ :: files) : List Issue × _)) = _
    rw [dif_neg file.nonempty]
    simp only [String.ofList_toList]
  rw [fileMarks, List.foldr_cons, List.foldr_cons, foldr_issueMark, hpath]
  rfl

theorem foldr_files (files : List FileIssues) :
    (files.flatMap fileMarks).foldr readLine ([], []) = ([], files) := by
  induction files with
  | nil => rfl
  | cons file files ih => rw [List.flatMap_cons, List.foldr_append, ih, foldr_fileMarks]

theorem readLines_marks (f : Findings) : readLines (marks f ++ [[]]) = ([], f.files) := by
  have hbody : (if f.isEmpty then [nothingFound.toList]
      else f.files.flatMap fileMarks).foldr readLine ([], []) = ([], f.files) := by
    split
    · next h => rw [List.isEmpty_iff.mp h]; decide
    · exact foldr_files f.files
  -- neither the heading nor what follows the last line feed says anything
  have hheading : ∀ read, readLine title.toList read = read ∧
      readLine (List.replicate 40 '=') read = read ∧ readLine [] read = read :=
    fun _ => ⟨rfl, rfl, rfl⟩
  rw [readLines, List.foldr_append, List.foldr_cons, List.foldr_nil, (hheading _).2.2, marks,
    List.foldr_cons, List.foldr_cons, List.foldr_cons, hbody, (hheading _).2.2, (hheading _).2.1,
    (hheading _).1]

/-- The lines of a text, and what follows the last line feed. -/
theorem splitOn_text {f : Findings} (h : f.OneLine) :
    (text f).toList.splitOn '\n' = marks f ++ [[]] := by
  rw [text, String.toList_ofList, ← feed_marks, splitOn_feed (not_mem_marks h)]

theorem findings_text {f : Findings} (h : f.OneLine) : findings (text f) = f := by
  rw [findings, splitOn_text h, readLines_marks]

/-- **A report on findings without line feeds tells what was found**: it can be
read back, and no other such findings have the same report. -/
theorem text_faithful :
    (∀ f : Findings, f.OneLine → findings (text f) = f) ∧
      ∀ f g : Findings, f.OneLine → g.OneLine → text f = text g → f = g := by
  refine ⟨fun f => findings_text, fun f g hf hg heq => ?_⟩
  rw [← findings_text hf, heq, findings_text hg]

/-- Findings with an empty path and an empty issue, and with texts that look like
parts of a report. -/
def confusing : Findings :=
  ⟨[⟨"", ["", "  - ", "File: a"], by simp⟩, ⟨"File: ", ["No issues found. 🎉"], by simp⟩,
    ⟨"  - b", [""], by simp⟩, ⟨"", ["File: "], by simp⟩]⟩

theorem confusing_text_faithful :
    confusing.OneLine ∧ Findings.empty.OneLine ∧ findings (text confusing) = confusing ∧
      text confusing ≠ text Findings.empty := by
  have hconfusing : confusing.OneLine := by
    simp [Findings.OneLine, confusing]
  have hempty : Findings.empty.OneLine := by
    simp [Findings.OneLine, Findings.empty]
  refine ⟨hconfusing, hempty, text_faithful.1 _ hconfusing, fun heq => ?_⟩
  exact absurd (text_faithful.2 _ _ hconfusing hempty heq) (by decide)

end Report

end WorkspaceAudit

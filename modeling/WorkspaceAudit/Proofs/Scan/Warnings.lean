/-
WorkspaceAudit/Proofs/Scan/Warnings.lean

The log of a scan beside its result.

What a scan logs and what it finds are put together by different statements.  Both
are told by one list: for each file that is checked, what came of reading it
(`Outcomes`).  The entry of a file and its lines are made from its outcome alone
(`entry`, `lines`), so a step keeps log and result together, and a pass does
(`checkAll_outcomes`).  From that list a warning and the entry of a failure are the
same failure told twice, in the same order.

A check reads its file as it is at that moment.  It may be the file of the log, so
an outcome is that of files that are the same but for the log, and nothing is asked
of where the log goes.
-/
import WorkspaceAudit.Proofs.Scan.Blocks

namespace WorkspaceAudit

namespace Session

theorem lines_recordAll (ls : List Log.Line) (s : Session) :
    (s.recordAll ls).lines = s.lines ++ ls := by
  induction ls generalizing s with
  | nil => exact (List.append_nil _).symm
  | cons l ls ih =>
    have hrest : ((s.record l).recordAll ls).lines = (s.record l).lines ++ ls := ih _
    rw [lines_record, List.append_assoc] at hrest
    exact hrest

/-- These files may be seen in the session, now or when its log has grown. -/
def Sees (s : Session) (t : FileTree) : Prop :=
  s.tree.SameBut (· ∈ s.recorder.file?) t

theorem Sees.of_recordAll {s : Session} {ls : List Log.Line} {t : FileTree}
    (h : (s.recordAll ls).Sees t) : s.Sees t := by
  obtain ⟨htree, hrec⟩ := sameBut_recordAll ls s
  rw [Sees, hrec] at h
  exact htree.trans h

end Session

namespace Scan

variable {ε α : Type}

/-! ### Outcomes -/

/-- The entry of a file, by what came of reading it. -/
def entry (issues : Path → α → List Issue) (issue : ε → Issue) :
    Path × Except ε α → String × List Issue
  | (p, .ok a) => (p.shown, issues p a)
  | (p, .error e) => (p.shown, [issue e])

/-- The lines about a file, by what came of reading it. -/
def lines (analyzing failing : String) (said : ε → String) :
    Path × Except ε α → List Log.Line
  | (p, .ok _) => [⟨.debug, analyzing ++ p.shown⟩]
  | (p, .error e) =>
    [⟨.debug, analyzing ++ p.shown⟩, ⟨.warn, failing ++ p.shown ++ ": " ++ said e⟩]

/-- The entry of a source. -/
def sourceEntry : Path × Except FileError String → String × List Issue :=
  entry (fun _ text => Source.issues text) unreadable

/-- The entry of a manifest. -/
def manifestEntry (expectations : Expectations) :
    Path × Except Manifest.LoadError Toml.Value → String × List Issue :=
  entry (fun p document => Manifest.issues expectations p.shown document) unloadable

/-- What came of each of these files, as it was seen in the session. -/
structure Outcomes (read : FileTree → Path → Except ε α) (s : Session) (files : List Path)
    (os : List (Path × Except ε α)) : Prop where
  paths : os.map Prod.fst = files
  seen : ∀ o ∈ os, ∃ t, s.Sees t ∧ read t o.1 = o.2

theorem Outcomes.nil (read : FileTree → Path → Except ε α) (s : Session) :
    Outcomes read s [] [] :=
  ⟨rfl, nofun⟩

theorem Outcomes.cons {read : FileTree → Path → Except ε α} {s : Session} {p : Path}
    {t : FileTree} {ps : List Path} {os : List (Path × Except ε α)} (ht : s.Sees t)
    (h : Outcomes read s ps os) : Outcomes read s (p :: ps) ((p, read t p) :: os) where
  paths := congrArg (p :: ·) h.paths
  seen := List.forall_mem_cons.mpr ⟨⟨t, ht, rfl⟩, h.seen⟩

theorem Outcomes.of_recordAll {read : FileTree → Path → Except ε α} {s : Session}
    {ls : List Log.Line} {ps : List Path} {os : List (Path × Except ε α)}
    (h : Outcomes read (s.recordAll ls) ps os) : Outcomes read s ps os where
  paths := h.paths
  seen := by
    intro o ho
    obtain ⟨t, ht, hread⟩ := h.seen o ho
    exact ⟨t, ht.of_recordAll, hread⟩

/-- A check makes the entry of its file and its lines from what it reads at that
moment. -/
def Tells (check : Path → Run (List Issue)) (read : FileTree → Path → Except ε α)
    (entry : Path × Except ε α → String × List Issue)
    (lines : Path × Except ε α → List Log.Line) : Prop :=
  ∀ (p : Path) (s : Session), ∃ t, s.Sees t ∧
    (do return (p.shown, ← check p) : Run (String × List Issue)).run s =
      (entry (p, read t p), s.recordAll (lines (p, read t p)))

theorem checkSource_tells :
    Tells checkSource FileTree.readText sourceEntry
      (lines "Analyzing source file: " "Could not read " FileError.message) := by
  intro p s
  refine ⟨(s.record ⟨.debug, "Analyzing source file: " ++ p.shown⟩).tree, s.sameBut_record _, ?_⟩
  rw [Run.run_bind, checkSource, Run.run_bind, Run.run_say, Run.run_bind, Run.run_ask]
  dsimp only
  rcases FileTree.readText _ p with e | text
  · rfl
  · rfl

theorem checkManifest_tells (expectations : Expectations) :
    Tells (checkManifest expectations) loadManifest (manifestEntry expectations)
      (lines "Analyzing manifest: " "Could not load " Manifest.LoadError.message) := by
  intro p s
  refine ⟨(s.record ⟨.debug, "Analyzing manifest: " ++ p.shown⟩).tree, s.sameBut_record _, ?_⟩
  rw [Run.run_bind, checkManifest, Run.run_bind, Run.run_say, Run.run_bind, Run.run_ask]
  dsimp only
  rcases loadManifest _ p with e | document
  · rfl
  · rfl

section Pass

variable {check : Path → Run (List Issue)} {read : FileTree → Path → Except ε α}
  {entry : Path × Except ε α → String × List Issue}

/-- **Checks tell log and result together**: both are made from one list of outcomes. -/
theorem checkAll_outcomes {lines : Path × Except ε α → List Log.Line}
    (hcheck : Tells check read entry lines) (files : List Path) (s : Session) :
    ∃ os, Outcomes read s files os ∧
      (checkAll check files).run s = (os.map entry, s.recordAll (os.flatMap lines)) := by
  induction files generalizing s with
  | nil => exact ⟨[], .nil read s, rfl⟩
  | cons p files ih =>
    -- one file, then the others with the log that it leaves
    obtain ⟨t, ht, hp⟩ := hcheck p s
    obtain ⟨os, hos, hfiles⟩ := ih (s.recordAll (lines (p, read t p)))
    refine ⟨(p, read t p) :: os, .cons ht hos.of_recordAll, ?_⟩
    rw [checkAll] at hfiles
    rw [checkAll, List.mapM_cons, Run.run_bind, hp]
    dsimp only
    rw [Run.run_bind, hfiles, List.flatMap_cons, Session.recordAll_append]
    rfl

/-! ### Passes -/

theorem forM_say {ι : Type} (level : Log.Level) (text : ι → String) (is : List ι) (s : Session) :
    (is.forM fun i => Run.say level (text i)).run s =
      ((), s.recordAll (is.map fun i => ⟨level, text i⟩)) := by
  induction is generalizing s with
  | nil => rfl
  | cons i is ih => exact ih (s.record ⟨level, text i⟩)

/-- A search answers what the files say when it starts, and adds its lines. -/
theorem find_run (root : Path) (g : Glob) (s : Session) :
    (find root g).run s = (s.tree.files root g, s.recordAll (findLines s.tree root g)) := by
  rw [find, Run.run_bind, Run.run_ask]
  dsimp only
  by_cases hd : s.tree.isDirectory root = true
  · rw [findLines, if_pos hd, if_pos hd, Session.recordAll_append, Run.run_bind, Run.run_ask,
      Run.run_bind, Run.run_ask, Run.run_bind, forM_say]
    rfl
  · rw [findLines, if_neg hd, if_neg hd, FileTree.files_of_not_isDirectory (by simpa using hd)]
    rfl

/-- What a pass over `what` adds to the log. -/
def passAdds (what analyzing failing : String) (said : ε → String) (t : FileTree) (root : Path)
    (g : Glob) (os : List (Path × Except ε α)) : List Log.Line :=
  findLines t root g ++
    ⟨.info, "Checking " ++ toString os.length ++ what ++ root.shown⟩ ::
      os.flatMap (lines analyzing failing said)

/-- A pass searches, says how many files it checks, and checks them. -/
theorem pass_outcomes {analyzing failing : String} {said : ε → String}
    (hcheck : Tells check read entry (lines analyzing failing said)) (what : String)
    (root : Path) (g : Glob) (s : Session) :
    ∃ os, Outcomes read s (s.tree.files root g) os ∧
      (do
          let files ← find root g
          Run.say .info ("Checking " ++ toString files.length ++ what ++ root.shown)
          checkAll check files : Run (List (String × List Issue))).run s =
        (os.map entry, s.recordAll (passAdds what analyzing failing said s.tree root g os)) := by
  have hsession : ∀ l : Log.Line, (s.recordAll (findLines s.tree root g)).record l =
      s.recordAll (findLines s.tree root g ++ [l]) := by
    intro l
    rw [Session.recordAll_append]
    rfl
  obtain ⟨os, hos, hrun⟩ := checkAll_outcomes hcheck (s.tree.files root g)
    (s.recordAll (findLines s.tree root g ++
      [⟨.info, "Checking " ++ toString (s.tree.files root g).length ++ what ++ root.shown⟩]))
  have hlength : (s.tree.files root g).length = os.length := by
    rw [← hos.paths, List.length_map]
  refine ⟨os, hos.of_recordAll, ?_⟩
  rw [Run.run_bind, find_run, Run.run_bind, Run.run_say]
  dsimp only
  rw [hsession, hrun, ← Session.recordAll_append, hlength, List.append_assoc]
  rfl

end Pass

/-! ### Warnings -/

/-- The files that have issues, of which alone an entry is kept. -/
def withIssues (entry : Path × Except ε α → String × List Issue)
    (os : List (Path × Except ε α)) : List (Path × Except ε α) :=
  os.filter fun o => !(entry o).2.isEmpty

/-- Those that could not be read. -/
def failed (os : List (Path × Except ε α)) : List (Path × Except ε α) :=
  os.filter fun o => !o.2.isOk

/-- A failure is an issue, so its entry is kept. -/
theorem failed_withIssues (issues : Path → α → List Issue) (issue : ε → Issue)
    (os : List (Path × Except ε α)) :
    failed (withIssues (entry issues issue) os) = failed os := by
  rw [failed, withIssues, List.filter_filter]
  apply List.filter_congr
  rintro ⟨p, o⟩ _
  cases o with
  | ok a => rfl
  | error e => rfl

theorem entries_withIssues (entry : Path × Except ε α → String × List Issue)
    (os : List (Path × Except ε α)) :
    (os.map entry).filter (fun e => !e.2.isEmpty) = (withIssues entry os).map entry := by
  rw [withIssues, List.filter_map]
  rfl

/-- The line is of this level and starts with these words. -/
def starts (level : Log.Level) (words : String) (l : Log.Line) : Bool :=
  l.level == level && words.toList.isPrefixOf l.text.toList

theorem starts_iff {level : Log.Level} {words : String} {l : Log.Line} :
    starts level words l = true ↔ ∃ rest, l = ⟨level, words ++ rest⟩ := by
  rw [starts, Bool.and_eq_true, beq_iff_eq, List.isPrefixOf_iff_prefix]
  constructor
  · rintro ⟨rfl, cs, hcs⟩
    refine ⟨String.ofList cs, congrArg (Log.Line.mk l.level) (String.toList_inj.mp ?_)⟩
    rw [String.toList_append, String.toList_ofList]
    exact hcs.symm
  · rintro ⟨rest, rfl⟩
    exact ⟨rfl, rest.toList, String.toList_append.symm⟩

/-- No text starts with both. -/
def PartWays (words words' : String) : Prop :=
  ∀ rest rest' : String, words' ++ rest' ≠ words ++ rest

theorem partWays {words words' : String} (hlength : words.toList.length ≤ words'.toList.length)
    (h : words.toList.isPrefixOf words'.toList = false) : PartWays words words' := by
  intro rest rest' heq
  have hlists : words'.toList ++ rest'.toList = words.toList ++ rest.toList := by
    rw [← String.toList_append, heq, String.toList_append]
  have hprefix : words.toList <+: words'.toList :=
    List.prefix_of_prefix_length_le ⟨_, rfl⟩ ⟨_, hlists⟩ hlength
  rw [List.isPrefixOf_iff_prefix.mpr hprefix] at h
  cases h

theorem not_starts_of_partWays {words words' : String} (h : PartWays words words')
    (level level' : Log.Level) (rest : String) :
    ¬ starts level words ⟨level', words' ++ rest⟩ = true := by
  intro hstarts
  obtain ⟨rest', heq⟩ := starts_iff.mp hstarts
  exact h rest' rest (congrArg Log.Line.text heq)

theorem not_starts_of_level {level level' : Log.Level} (h : (level' == level) = false)
    (words text : String) : ¬ starts level words ⟨level', text⟩ = true := by
  rw [starts, h, Bool.false_and]
  exact Bool.false_ne_true

/-- Words that no warning of a search starts with. -/
structure AboutFiles (words : String) : Prop where
  missing : PartWays words "Search directory not found: "
  skipped : PartWays words "Skipping unreadable entry under "

theorem aboutFiles_read : AboutFiles "Could not read " :=
  ⟨partWays (by decide) rfl, partWays (by decide) rfl⟩

theorem aboutFiles_load : AboutFiles "Could not load " :=
  ⟨partWays (by decide) rfl, partWays (by decide) rfl⟩

/-- A line is the warning about a file that could not be read. -/
def Warns (failing : String) (said : ε → String) (w : Log.Line) (o : Path × Except ε α) : Prop :=
  ∃ p e, o = (p, .error e) ∧ w = ⟨.warn, failing ++ p.shown ++ ": " ++ said e⟩

/-- Among the lines of checks the warnings are those of the failures, in order. -/
theorem warnings_lines (analyzing failing : String) (said : ε → String)
    (os : List (Path × Except ε α)) :
    List.Forall₂ (Warns failing said)
      ((os.flatMap (lines analyzing failing said)).filter (starts .warn failing)) (failed os) := by
  have hanalyzing : ∀ p : Path, ¬ starts .warn failing ⟨.debug, analyzing ++ p.shown⟩ = true :=
    fun p => not_starts_of_level rfl failing _
  induction os with
  | nil => exact .nil
  | cons o os ih =>
    obtain ⟨p, e | a⟩ := o
    · -- a failure has a warning, and is one of those that failed
      have hwarning :
          starts .warn failing ⟨.warn, failing ++ p.shown ++ ": " ++ said e⟩ = true := by
        rw [String.append_assoc, String.append_assoc]
        exact starts_iff.mpr ⟨_, rfl⟩
      rw [List.flatMap_cons, lines, List.cons_append, List.cons_append, List.nil_append,
        List.filter_cons_of_neg (hanalyzing p), List.filter_cons_of_pos hwarning]
      exact .cons ⟨p, e, rfl, rfl⟩ ih
    · rw [List.flatMap_cons, lines, List.cons_append, List.nil_append,
        List.filter_cons_of_neg (hanalyzing p)]
      exact ih

/-- The warnings of checks start with no other words. -/
theorem no_warnings_lines {words failing : String} (h : PartWays words failing)
    (analyzing : String) (said : ε → String) (os : List (Path × Except ε α)) :
    (os.flatMap (lines analyzing failing said)).filter (starts .warn words) = [] := by
  rw [List.filter_eq_nil_iff]
  intro l hl
  obtain ⟨⟨p, e | a⟩, -, hl⟩ := List.mem_flatMap.mp hl
  · rw [lines, List.mem_pair] at hl
    rcases hl with rfl | rfl
    · exact not_starts_of_level rfl words _
    · rw [String.append_assoc, String.append_assoc]
      exact not_starts_of_partWays h _ _ _
  · rw [List.mem_singleton.mp hl]
    exact not_starts_of_level rfl words _

/-- A search warns of directories, and not of files. -/
theorem no_warnings_findLines {words : String} (h : AboutFiles words) (t : FileTree)
    (root : Path) (g : Glob) : (findLines t root g).filter (starts .warn words) = [] := by
  have hmessage : ∀ p, ¬ starts .warn words ⟨.warn, skippedMessage root p⟩ = true := by
    intro p
    unfold skippedMessage
    generalize FileError.nameTooLong.message = said
    rw [String.append_assoc, String.append_assoc, String.append_assoc, String.append_assoc]
    exact not_starts_of_partWays h.skipped _ _ _
  rw [List.filter_eq_nil_iff, findLines]
  by_cases hd : t.isDirectory root = true
  · rw [if_pos hd, List.forall_mem_append, List.forall_mem_map, List.forall_mem_singleton]
    exact ⟨fun p _ => hmessage p, not_starts_of_level rfl words _⟩
  · rw [if_neg hd, List.forall_mem_singleton]
    exact not_starts_of_partWays h.missing _ _ _

/-- Checks analyze each file once. -/
theorem countP_lines (analyzing failing : String) (said : ε → String)
    (os : List (Path × Except ε α)) :
    (os.flatMap (lines analyzing failing said)).countP (starts .debug analyzing) = os.length := by
  have hanalyzing : ∀ p : Path, starts .debug analyzing ⟨.debug, analyzing ++ p.shown⟩ = true :=
    fun p => starts_iff.mpr ⟨_, rfl⟩
  have hwarning : ∀ text, ¬ starts .debug analyzing ⟨.warn, text⟩ = true :=
    fun text => not_starts_of_level rfl analyzing text
  induction os with
  | nil => rfl
  | cons o os ih =>
    obtain ⟨p, e | a⟩ := o
    · rw [List.flatMap_cons, lines, List.cons_append, List.cons_append, List.nil_append,
        List.countP_cons_of_pos (hanalyzing p), List.countP_cons_of_neg (hwarning _), ih]
      rfl
    · rw [List.flatMap_cons, lines, List.cons_append, List.nil_append,
        List.countP_cons_of_pos (hanalyzing p), ih]
      rfl

/-! ### The log of a pass -/

/-- The lines of a pass that checks so many files.  Where there is a directory the
search, the pass and the checks agree on the number, and elsewhere it is zero and
nothing follows. -/
inductive PassLog (what analyzing : String) (root : Path) (g : Glob) :
    Bool → Nat → List Log.Line → Prop
  | found {skipped following : List Log.Line} {n : Nat}
      (hskipped : ∀ l ∈ skipped, l.level = .warn)
      (hfollowing : following.countP (starts .debug analyzing) = n) :
      PassLog what analyzing root g true n (skipped ++
        ⟨.debug, "Found " ++ toString n ++ " file(s) matching " ++ g.text ++ " under " ++
          root.shown⟩ ::
        ⟨.info, "Checking " ++ toString n ++ what ++ root.shown⟩ :: following)
  | missing :
      PassLog what analyzing root g false 0
        [⟨.warn, "Search directory not found: " ++ root.shown⟩,
          ⟨.info, "Checking " ++ toString 0 ++ what ++ root.shown⟩]

theorem passLog (what analyzing failing : String) (said : ε → String) {t : FileTree}
    {root : Path} {g : Glob} (hos : os.map Prod.fst = t.files root g) :
    PassLog what analyzing root g (t.isDirectory root) os.length
      (passAdds what analyzing failing said t root g os) := by
  have hlength : (t.files root g).length = os.length := by
    rw [← hos, List.length_map]
  by_cases hd : t.isDirectory root = true
  · rw [passAdds, findLines, if_pos hd, hd, hlength, List.append_assoc]
    refine .found ?_ (countP_lines analyzing failing said os)
    intro l hl
    obtain ⟨p, hp⟩ := List.mem_map.mp hl
    rw [← hp.2]
  · -- without a directory there are no files
    rw [FileTree.files_of_not_isDirectory (Bool.eq_false_iff.mpr hd), List.map_eq_nil_iff] at hos
    rw [passAdds, findLines, if_neg hd, Bool.eq_false_iff.mpr hd, hos]
    exact .missing

/-- The warnings of a pass that are about its files are those of its checks. -/
theorem warnings_passAdds {words : String} (h : AboutFiles words)
    (what analyzing failing : String) (said : ε → String) (t : FileTree) (root : Path)
    (g : Glob) (os : List (Path × Except ε α)) :
    (passAdds what analyzing failing said t root g os).filter (starts .warn words) =
      (os.flatMap (lines analyzing failing said)).filter (starts .warn words) := by
  have hchecking : ∀ text, ¬ starts .warn words ⟨.info, text⟩ = true :=
    fun text => not_starts_of_level rfl words text
  rw [passAdds, List.filter_append, no_warnings_findLines h,
    List.filter_cons_of_neg (hchecking _), List.nil_append]

/-! ### Both passes -/

/-- A line warns that a file could not be read, and the entry of that file has the same
failure as its one issue. -/
def Told (failing issue : String) (said : ε → String)
    (entry : Path × Except ε α → String × List Issue) (w : Log.Line)
    (o : Path × Except ε α) : Prop :=
  ∃ p e, o = (p, .error e) ∧ w = ⟨.warn, failing ++ p.shown ++ ": " ++ said e⟩ ∧
    entry o = (p.shown, [issue ++ said e])

theorem sources_told {w : Log.Line} {o : Path × Except FileError String}
    (h : Warns "Could not read " FileError.message w o) :
    Told "Could not read " "Error reading file: " FileError.message sourceEntry w o := by
  obtain ⟨p, e, rfl, hw⟩ := h
  exact ⟨p, e, rfl, hw, rfl⟩

theorem manifests_told (expectations : Expectations) {w : Log.Line}
    {o : Path × Except Manifest.LoadError Toml.Value}
    (h : Warns "Could not load " Manifest.LoadError.message w o) :
    Told "Could not load " "Error reading Cargo.toml: " Manifest.LoadError.message
      (manifestEntry expectations) w o := by
  obtain ⟨p, e, rfl, hw⟩ := h
  exact ⟨p, e, rfl, hw, rfl⟩

section Passes

variable (c : Config) (g h : Glob) (t : FileTree) (f : Findings)
  (read : List (Path × Except FileError String))
  (loaded : List (Path × Except Manifest.LoadError Toml.Value))

/-- What the first pass of a scan adds to the log. -/
def sourcesAdd : List Log.Line :=
  passAdds " source file(s) under " "Analyzing source file: " "Could not read " FileError.message
    t c.sourceRoot g read

/-- What the second pass of a scan adds to the log. -/
def manifestsAdd : List Log.Line :=
  passAdds " manifest(s) under " "Analyzing manifest: " "Could not load "
    Manifest.LoadError.message t c.root h loaded

/-- The warnings of a scan that are about files are those of the checks of both passes. -/
theorem warnings_scan {words : String} (hwords : AboutFiles words) (t' : FileTree) :
    (sourcesAdd c g t read ++ manifestsAdd c h t' loaded ++ [finishedLine f]).filter
        (starts .warn words) =
      (read.flatMap (lines "Analyzing source file: " "Could not read " FileError.message)).filter
          (starts .warn words) ++
        (loaded.flatMap (lines "Analyzing manifest: " "Could not load "
          Manifest.LoadError.message)).filter (starts .warn words) := by
  have hfinished : [finishedLine f].filter (starts .warn words) = [] :=
    List.filter_cons_of_neg (not_starts_of_level rfl words _)
  rw [List.filter_append, List.filter_append, hfinished, List.append_nil, sourcesAdd,
    manifestsAdd, warnings_passAdds hwords, warnings_passAdds hwords]

/-- The second pass does not warn as the first. -/
theorem warnings_read (t' : FileTree) :
    List.Forall₂ (Warns "Could not read " FileError.message)
      ((sourcesAdd c g t read ++ manifestsAdd c h t' loaded ++ [finishedLine f]).filter
        (starts .warn "Could not read ")) (failed read) := by
  have hload : PartWays "Could not read " "Could not load " := partWays (by decide) rfl
  rw [warnings_scan c g h t f read loaded aboutFiles_read, no_warnings_lines hload,
    List.append_nil]
  exact warnings_lines _ _ _ read

/-- The first pass does not warn as the second. -/
theorem warnings_loaded (t' : FileTree) :
    List.Forall₂ (Warns "Could not load " Manifest.LoadError.message)
      ((sourcesAdd c g t read ++ manifestsAdd c h t' loaded ++ [finishedLine f]).filter
        (starts .warn "Could not load ")) (failed loaded) := by
  have hread : PartWays "Could not load " "Could not read " := partWays (by decide) rfl
  rw [warnings_scan c g h t f read loaded aboutFiles_load, no_warnings_lines hread,
    List.nil_append]
  exact warnings_lines _ _ _ loaded

end Passes

section Workspace

variable {c : Config} {g h : Glob}

/-- A scan makes its findings and its lines from the outcomes of both passes. -/
theorem workspace_outcomes (hp : patterns c = .ok (g, h)) (s : Session) :
    ∃ f read loaded t, s.tree.Similar t ∧
      Outcomes FileTree.readText s (sourceFiles c g s) read ∧
      Outcomes loadManifest s (manifestFiles c h s) loaded ∧
      f = (Findings.empty.recordAll (read.map sourceEntry)).recordAll
        (loaded.map (manifestEntry c.expectations)) ∧
      (workspace c).run s = (.ok f, s.recordAll
        (sourcesAdd c g s.tree read ++ manifestsAdd c h t loaded ++ [finishedLine f])) := by
  obtain ⟨read, hread, hfirst⟩ :=
    pass_outcomes checkSource_tells " source file(s) under " c.sourceRoot g s
  have hsources : (sources c.sourceRoot g).run s =
    (read.map sourceEntry, s.recordAll (sourcesAdd c g s.tree read)) := hfirst
  -- the second pass finds what is there at first, in a log that has grown
  have hsimilar : s.tree.Similar (s.recordAll (sourcesAdd c g s.tree read)).tree :=
    (s.sameBut_recordAll _).1.similar
  obtain ⟨loaded, hloaded, hsecond⟩ :=
    pass_outcomes (checkManifest_tells c.expectations) " manifest(s) under " c.root h
      (s.recordAll (sourcesAdd c g s.tree read))
  have hmanifests : (manifests c.expectations c.root h).run _ = _ := hsecond
  refine ⟨_, read, loaded, _, hsimilar, ?_, ?_, rfl, ?_⟩
  · rw [sourceFiles_eq]
    exact hread
  · rw [manifestFiles_eq, hsimilar.files_eq]
    exact hloaded.of_recordAll
  · rw [workspace, hp, Session.recordAll_append, Session.recordAll_append]
    show (passes c g h >>= fun f => return .ok f : Run (Except AuditError Findings)).run s = _
    rw [Run.run_bind, passes, Run.run_bind, hsources, Run.run_bind, hmanifests]
    rfl

/-- **Warnings and failures are told one to one.**  What a scan finds and what it logs
come from the same outcomes of reading its files: the warnings about sources are those
of the entries that failed to be read, in the same order, and so are the warnings about
manifests those of the entries that failed to be loaded; and each pass says how many
files it checks. -/
theorem workspace_warnings (hp : patterns c = .ok (g, h)) (s : Session) :
    ∃ f first second read loaded,
      ((workspace c).run s).1 = .ok f ∧
      ((workspace c).run s).2.lines = s.lines ++ (first ++ second ++ [finishedLine f]) ∧
      Outcomes FileTree.readText s (sourceFiles c g s) read ∧
      Outcomes loadManifest s (manifestFiles c h s) loaded ∧
      f.files.map FileIssues.entry =
        (withIssues sourceEntry read).map sourceEntry ++
          (withIssues (manifestEntry c.expectations) loaded).map
            (manifestEntry c.expectations) ∧
      List.Forall₂
        (Told "Could not read " "Error reading file: " FileError.message sourceEntry)
        ((first ++ second ++ [finishedLine f]).filter (starts .warn "Could not read "))
        (failed (withIssues sourceEntry read)) ∧
      List.Forall₂
        (Told "Could not load " "Error reading Cargo.toml: " Manifest.LoadError.message
          (manifestEntry c.expectations))
        ((first ++ second ++ [finishedLine f]).filter (starts .warn "Could not load "))
        (failed (withIssues (manifestEntry c.expectations) loaded)) ∧
      PassLog " source file(s) under " "Analyzing source file: " c.sourceRoot g
        (s.tree.isDirectory c.sourceRoot) read.length first ∧
      PassLog " manifest(s) under " "Analyzing manifest: " c.root h
        (s.tree.isDirectory c.root) loaded.length second := by
  obtain ⟨f, read, loaded, t, ht, hread, hloaded, hf, hrun⟩ := workspace_outcomes hp s
  refine ⟨f, sourcesAdd c g s.tree read, manifestsAdd c h t loaded, read, loaded, ?_, ?_, hread,
    hloaded, ?_, ?_, ?_, ?_, ?_⟩
  · rw [hrun]
  · rw [hrun, Session.lines_recordAll]
  · rw [hf, Findings.entries_recordAll, Findings.entries_recordAll, entries_withIssues,
      entries_withIssues]
    rfl
  · have hfailed : failed (withIssues sourceEntry read) = failed read := failed_withIssues _ _ read
    rw [hfailed]
    exact (warnings_read c g h s.tree f read loaded t).imp fun _ _ => sources_told
  · have hfailed : failed (withIssues (manifestEntry c.expectations) loaded) = failed loaded :=
      failed_withIssues _ _ loaded
    rw [hfailed]
    exact (warnings_loaded c g h s.tree f read loaded t).imp fun _ _ =>
      manifests_told c.expectations
  · apply passLog
    rw [hread.paths, sourceFiles_eq]
  · rw [ht.isDirectory_eq]
    apply passLog
    rw [hloaded.paths, manifestFiles_eq, ht.files_eq]

end Workspace

/-- A source that is no text, and a header without its end. -/
def brokenSession : Session :=
  smallSession [0xff] (Bytes.ofText "[package\n")

/-- The source fails under both of its names and the manifest once: the log has two
warnings and one, for these entries, and says that two files and one file are
checked. -/
theorem broken_workspace_warnings :
    ∃ f first second read loaded,
      ((workspace smallConfig).run brokenSession).1 = .ok f ∧
      ((workspace smallConfig).run brokenSession).2.lines =
        first ++ second ++ [finishedLine f] ∧
      f.files.map FileIssues.entry =
        [("./src/a.rs", ["Error reading file: stream did not contain valid UTF-8"]),
          ("./src/b.rs", ["Error reading file: stream did not contain valid UTF-8"]),
          ("./Cargo.toml", ["Error reading Cargo.toml: invalid table header\n" ++
            "expected \x60.\x60, \x60]\x60 (line 1)"])] ∧
      List.Forall₂
        (Told "Could not read " "Error reading file: " FileError.message sourceEntry)
        [⟨.warn, "Could not read ./src/a.rs: stream did not contain valid UTF-8"⟩,
          ⟨.warn, "Could not read ./src/b.rs: stream did not contain valid UTF-8"⟩]
        (failed (withIssues sourceEntry read)) ∧
      List.Forall₂
        (Told "Could not load " "Error reading Cargo.toml: " Manifest.LoadError.message
          (manifestEntry smallConfig.expectations))
        [⟨.warn, "Could not load ./Cargo.toml: invalid table header\n" ++
          "expected \x60.\x60, \x60]\x60 (line 1)"⟩]
        (failed (withIssues (manifestEntry smallConfig.expectations) loaded)) ∧
      PassLog " source file(s) under " "Analyzing source file: " smallConfig.sourceRoot
        ⟨"*.rs"⟩ true 2 first ∧
      PassLog " manifest(s) under " "Analyzing manifest: " smallConfig.root ⟨"Cargo.toml"⟩ true 1
        second := by
  obtain ⟨f, first, second, read, loaded, hanswer, hlines, hread, hloaded, -, hwarnings,
      hwarnings', hfirst, hsecond⟩ :=
    workspace_warnings (c := smallConfig) (g := ⟨"*.rs"⟩) (h := ⟨"Cargo.toml"⟩) rfl brokenSession
  have hempty : brokenSession.lines = [] := rfl
  rw [hempty, List.nil_append] at hlines
  rw [← hlines] at hwarnings hwarnings'
  have htwo : read.length = 2 := by
    rw [← List.length_map, hread.paths]
    rfl
  have hone : loaded.length = 1 := by
    rw [← List.length_map, hloaded.paths]
    rfl
  rw [htwo] at hfirst
  rw [hone] at hsecond
  have hentries : ((workspace smallConfig).run brokenSession).1.map
      (·.files.map FileIssues.entry) = .ok
        [("./src/a.rs", ["Error reading file: stream did not contain valid UTF-8"]),
          ("./src/b.rs", ["Error reading file: stream did not contain valid UTF-8"]),
          ("./Cargo.toml", ["Error reading Cargo.toml: invalid table header\n" ++
            "expected \x60.\x60, \x60]\x60 (line 1)"])] := by
    decide +kernel
  rw [hanswer] at hentries
  refine ⟨f, first, second, read, loaded, hanswer, hlines, Except.ok.inj hentries, ?_, ?_, hfirst,
    hsecond⟩
  · have hfilter : ((workspace smallConfig).run brokenSession).2.lines.filter
        (starts .warn "Could not read ") =
          [⟨.warn, "Could not read ./src/a.rs: stream did not contain valid UTF-8"⟩,
            ⟨.warn, "Could not read ./src/b.rs: stream did not contain valid UTF-8"⟩] := by
      decide +kernel
    rwa [hfilter] at hwarnings
  · have hfilter : ((workspace smallConfig).run brokenSession).2.lines.filter
        (starts .warn "Could not load ") =
          [⟨.warn, "Could not load ./Cargo.toml: invalid table header\n" ++
            "expected \x60.\x60, \x60]\x60 (line 1)"⟩] := by
      decide +kernel
    rwa [hfilter] at hwarnings'

end Scan

end WorkspaceAudit

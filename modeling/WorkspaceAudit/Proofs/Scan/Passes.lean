/-
WorkspaceAudit/Proofs/Scan/Passes.lean

What the parts of a scan answer and log.

Each part of a scan is a run that only reads the files, so each has its
answer and its lines on given files: a check (`checkSource_logs`,
`checkManifest_logs`), a search (`find_logs`), a pass over the files that a
search finds (`pass_logs`), and the whole scan (`workspace_logs`).  The log
may go to one of the files, as long as no check reads that file.  Where it goes
to none, the whole scan leaves the files as they were (`workspace_onlyReads`).
-/
import WorkspaceAudit.Proofs.Tree.Files

namespace WorkspaceAudit

/-! ### Checking one file -/

namespace FileTree

/-- The path does not lead to the file of the log. -/
def Apart (t : FileTree) (log : Option Location) (p : Path) : Prop :=
  ∀ loc ∈ log, t.leadsTo loc p = false

theorem SameBut.readText_of_apart {t t' : FileTree} {log : Option Location}
    (h : t.SameBut (· ∈ log) t') {p : Path} (hp : t.Apart log p) :
    t'.readText p = t.readText p :=
  (h.readText_eq hp).symm

end FileTree

namespace Scan

/-- The issues of the source at a path. -/
def sourceIssues (t : FileTree) (p : Path) : List Issue :=
  match t.readText p with
  | .ok text => Source.issues text
  | .error e => [unreadable e]

/-- What is logged about the source at a path. -/
def sourceLines (t : FileTree) (p : Path) : List Log.Line :=
  ⟨.debug, "Analyzing source file: " ++ p.shown⟩ ::
    match t.readText p with
    | .ok _ => []
    | .error e => [⟨.warn, "Could not read " ++ p.shown ++ ": " ++ e.message⟩]

/-- The issues of the manifest at a path. -/
def manifestIssues (expectations : Expectations) (t : FileTree) (p : Path) : List Issue :=
  match loadManifest t p with
  | .ok document => Manifest.issues expectations p.shown document
  | .error e => [unloadable e]

/-- What is logged about the manifest at a path. -/
def manifestLines (t : FileTree) (p : Path) : List Log.Line :=
  ⟨.debug, "Analyzing manifest: " ++ p.shown⟩ ::
    match loadManifest t p with
    | .ok _ => []
    | .error e => [⟨.warn, "Could not load " ++ p.shown ++ ": " ++ e.message⟩]

variable {log : Option Location} {t : FileTree}

theorem checkSource_logs {p : Path} (hp : t.Apart log p) :
    Logs (checkSource p) log t (sourceIssues t p) (sourceLines t p) := by
  refine Logs.say_bind (Logs.ask_bind (fun t' ht => ht.readText_of_apart hp) ?_)
  rw [sourceIssues]
  rcases t.readText p with e | text
  · exact Logs.say_bind (Logs.pure _)
  · exact Logs.pure _

theorem loadManifest_of_apart {t' : FileTree} (ht : t.SameBut (· ∈ log) t') {p : Path}
    (hp : t.Apart log p) : loadManifest t' p = loadManifest t p := by
  rw [loadManifest, loadManifest, ht.readText_of_apart hp]

theorem checkManifest_logs (expectations : Expectations) {p : Path} (hp : t.Apart log p) :
    Logs (checkManifest expectations p) log t (manifestIssues expectations t p)
      (manifestLines t p) := by
  refine Logs.say_bind (Logs.ask_bind (fun t' ht => loadManifest_of_apart ht hp) ?_)
  rw [manifestIssues]
  rcases loadManifest t p with e | document
  · exact Logs.say_bind (Logs.pure _)
  · exact Logs.pure _

/-! ### Searching -/

/-- What is logged about a search. -/
def findLines (t : FileTree) (root : Path) (g : Glob) : List Log.Line :=
  if t.isDirectory root then
    (t.unopened root).map (fun p => ⟨.warn, skippedMessage root p⟩) ++
      [⟨.debug, "Found " ++ toString (t.files root g).length ++ " file(s) matching " ++
        g.text ++ " under " ++ root.shown⟩]
  else [⟨.warn, "Search directory not found: " ++ root.shown⟩]

/-- A search looks into no file, so the log makes no difference to it. -/
theorem find_logs (log : Option Location) (t : FileTree) (root : Path) (g : Glob) :
    Logs (find root g) log t (t.files root g) (findLines t root g) := by
  refine Logs.ask_bind (fun t' ht => (ht.similar.isDirectory_eq root).symm) ?_
  rw [findLines]
  by_cases hd : t.isDirectory root = true
  · -- a line for each directory that is not entered, then the number of files
    rw [if_pos hd, if_pos hd, List.map_eq_flatMap]
    refine Logs.ask_bind (fun t' ht => (ht.similar.unopened_eq root).symm) ?_
    refine Logs.ask_bind (fun t' ht => (ht.similar.files_eq root g).symm) ?_
    have hskipped : Logs ((t.unopened root).forM fun p => Run.say .warn (skippedMessage root p))
        log t () _ := Logs.forM _ fun p _ => Logs.say .warn (skippedMessage root p)
    exact hskipped.bind (Logs.say_bind (Logs.pure _))
  · rw [if_neg hd, if_neg hd, FileTree.files_of_not_isDirectory (Bool.eq_false_iff.mpr hd)]
    exact Logs.say_bind (Logs.pure _)

/-! ### Passes -/

/-- The files of a pass, as they are shown, with their issues. -/
def checked (issues : Path → List Issue) (files : List Path) : List (String × List Issue) :=
  files.map fun p => (p.shown, issues p)

theorem checkAll_logs {check : Path → Run (List Issue)} {issues : Path → List Issue}
    {lines : Path → List Log.Line} {files : List Path}
    (h : ∀ p ∈ files, Logs (check p) log t (issues p) (lines p)) :
    Logs (checkAll check files) log t (checked issues files) (files.flatMap lines) := by
  refine Logs.mapM files fun p hp => ?_
  rw [← List.append_nil (lines p)]
  exact (h p hp).bind (Logs.pure _)

/-- What is logged by a pass over `what` below a directory. -/
def passLines (what : String) (lines : Path → List Log.Line) (t : FileTree) (root : Path)
    (g : Glob) : List Log.Line :=
  findLines t root g ++
    ⟨.info, "Checking " ++ toString (t.files root g).length ++ what ++ root.shown⟩ ::
      (t.files root g).flatMap lines

/-- A pass checks what a search finds. -/
theorem pass_logs {check : Path → Run (List Issue)} {issues : Path → List Issue}
    {lines : Path → List Log.Line} (what : String) {root : Path} {g : Glob}
    (h : ∀ p ∈ t.files root g, Logs (check p) log t (issues p) (lines p)) :
    Logs (do
        let files ← find root g
        Run.say .info ("Checking " ++ toString files.length ++ what ++ root.shown)
        checkAll check files) log t
      (checked issues (t.files root g)) (passLines what lines t root g) :=
  (find_logs log t root g).bind (Logs.say_bind (checkAll_logs h))

theorem sources_logs {root : Path} {g : Glob} (h : ∀ p ∈ t.files root g, t.Apart log p) :
    Logs (sources root g) log t (checked (sourceIssues t) (t.files root g))
      (passLines " source file(s) under " (sourceLines t) t root g) :=
  pass_logs _ fun p hp => checkSource_logs (h p hp)

theorem manifests_logs (expectations : Expectations) {root : Path} {g : Glob}
    (h : ∀ p ∈ t.files root g, t.Apart log p) :
    Logs (manifests expectations root g) log t
      (checked (manifestIssues expectations t) (t.files root g))
      (passLines " manifest(s) under " (manifestLines t) t root g) :=
  pass_logs _ fun p hp => checkManifest_logs expectations (h p hp)

/-! ### The whole scan -/

/-- What a scan finds in these files. -/
def findings (c : Config) (g h : Glob) (t : FileTree) : Findings :=
  (Findings.empty.recordAll (checked (sourceIssues t) (t.files c.sourceRoot g))).recordAll
    (checked (manifestIssues c.expectations t) (t.files c.root h))

/-- The last line of a scan. -/
def finishedLine (f : Findings) : Log.Line :=
  ⟨.info, "Scan finished: " ++ toString f.size ++ " file(s) with " ++ toString f.total ++
    " issue(s)"⟩

/-- What is logged by a scan of these files. -/
def scanLines (c : Config) (g h : Glob) (t : FileTree) : List Log.Line :=
  passLines " source file(s) under " (sourceLines t) t c.sourceRoot g ++
    (passLines " manifest(s) under " (manifestLines t) t c.root h ++
      [finishedLine (findings c g h t)])

theorem passes_logs {c : Config} {g h : Glob}
    (hlog : ∀ p ∈ t.files c.sourceRoot g ++ t.files c.root h, t.Apart log p) :
    Logs (passes c g h) log t (findings c g h t) (scanLines c g h t) := by
  -- the first pass leaves the files as they were but for the log
  have hsources := sources_logs fun p hp => hlog p (List.mem_append_left _ hp)
  have hmanifests := manifests_logs c.expectations
    fun p hp => hlog p (List.mem_append_right _ hp)
  exact hsources.bind (hmanifests.bind (Logs.say_bind (Logs.pure _)))

/-- With good patterns a scan answers findings, whatever the files are. -/
theorem workspace_logs {c : Config} {g h : Glob} (hp : patterns c = .ok (g, h))
    (hlog : ∀ p ∈ t.files c.sourceRoot g ++ t.files c.root h, t.Apart log p) :
    Logs (workspace c) log t (.ok (findings c g h t)) (scanLines c g h t) := by
  rw [workspace, hp, ← List.append_nil (scanLines c g h t)]
  exact (passes_logs hlog).bind (Logs.pure _)

/-! ### A scan only reads -/

theorem checkSource_records (p : Path) : Records (checkSource p) := by
  refine (Records.say _ _).bind fun _ => (Records.ask _).bind fun read => ?_
  rcases read with e | text
  · exact (Records.say _ _).bind fun _ => .pure _
  · exact .pure _

theorem checkManifest_records (expectations : Expectations) (p : Path) :
    Records (checkManifest expectations p) := by
  refine (Records.say _ _).bind fun _ => (Records.ask _).bind fun loaded => ?_
  rcases loaded with e | document
  · exact (Records.say _ _).bind fun _ => .pure _
  · exact .pure _

theorem find_records (root : Path) (g : Glob) : Records (find root g) := by
  refine (Records.ask _).bind fun isDirectory => ?_
  cases isDirectory with
  | true =>
    refine (Records.ask _).bind fun unopened => (Records.ask _).bind fun files => ?_
    refine (Records.forM (fun _ => .say _ _) unopened).bind fun _ => ?_
    exact (Records.say _ _).bind fun _ => .pure _
  | false => exact (Records.say _ _).bind fun _ => .pure _

theorem checkAll_records {check : Path → Run (List Issue)} (h : ∀ p, Records (check p))
    (files : List Path) : Records (checkAll check files) :=
  .mapM (fun p => (h p).bind fun _ => .pure _) files

theorem sources_records (root : Path) (g : Glob) : Records (sources root g) :=
  (find_records root g).bind fun files => (Records.say _ _).bind fun _ =>
    checkAll_records checkSource_records files

theorem manifests_records (expectations : Expectations) (root : Path) (g : Glob) :
    Records (manifests expectations root g) :=
  (find_records root g).bind fun files => (Records.say _ _).bind fun _ =>
    checkAll_records (checkManifest_records expectations) files

theorem passes_records (c : Config) (g h : Glob) : Records (passes c g h) :=
  (sources_records _ g).bind fun _ => (manifests_records _ _ h).bind fun _ =>
    (Records.say _ _).bind fun _ => .pure _

/-- A scan adds lines to the log and does nothing else, whatever it finds and
however it ends. -/
theorem workspace_records (c : Config) : Records (workspace c) := by
  rw [workspace]
  rcases patterns c with e | ⟨g, h⟩
  · exact .pure _
  · exact (passes_records c g h).bind fun _ => .pure _

/-- A scan changes no file. -/
theorem workspace_onlyReads (c : Config) : OnlyReads (workspace c) :=
  (workspace_records c).onlyReads

end Scan

end WorkspaceAudit

/-
WorkspaceAudit/Proofs/Scan/Blocks.lean

What a scan finds.

A scan records the checks of the sources and then those of the manifests, so
what it finds is two blocks (`entries_findings`), each told by what a search
finds and what a check of each file alone answers.

The headline adds what the issues of the blocks are, and that the log counts
them.  It is followed by a small workspace, with a log among its files.
-/
import WorkspaceAudit.Proofs.Findings
import WorkspaceAudit.Proofs.Manifest
import WorkspaceAudit.Proofs.Scan.Passes

namespace WorkspaceAudit.Scan

/-! ### Blocks -/

/-- The files of the first pass. -/
def sourceFiles (c : Config) (g : Glob) (s : Session) : List Path :=
  ((find c.sourceRoot g).run s).1

/-- The files of the second pass. -/
def manifestFiles (c : Config) (h : Glob) (s : Session) : List Path :=
  ((find c.root h).run s).1

theorem sourceFiles_eq (c : Config) (g : Glob) (s : Session) :
    sourceFiles c g s = s.tree.files c.sourceRoot g :=
  find_answer c.sourceRoot g s

theorem manifestFiles_eq (c : Config) (h : Glob) (s : Session) :
    manifestFiles c h s = s.tree.files c.root h :=
  find_answer c.root h s

/-- The files that have issues, with these, as a check of each alone answers
them. -/
def recorded (check : Path → Run (List Issue)) (s : Session) (files : List Path) :
    List (Path × List Issue) :=
  (files.map fun p => (p, ((check p).run s).1)).filter fun e => !e.2.isEmpty

/-- What the first pass adds to the findings. -/
def sourceBlock (c : Config) (g : Glob) (s : Session) : List (Path × List Issue) :=
  recorded checkSource s (sourceFiles c g s)

/-- What the second pass adds to the findings. -/
def manifestBlock (c : Config) (h : Glob) (s : Session) : List (Path × List Issue) :=
  recorded (checkManifest c.expectations) s (manifestFiles c h s)

/-- An entry of a block as it stands in the findings. -/
def shownEntry (e : Path × List Issue) : String × List Issue :=
  (e.1.shown, e.2)

/-- The log goes to none of the files that a scan reads.  It may go to another
file, or to none at all. -/
def LogApart (c : Config) (g h : Glob) (s : Session) : Prop :=
  ∀ p ∈ sourceFiles c g s ++ manifestFiles c h s, s.tree.Apart s.recorder.file? p

section Blocks

variable {c : Config} {g h : Glob} {s : Session}

theorem LogApart.files (hlog : LogApart c g h s) :
    ∀ p ∈ s.tree.files c.sourceRoot g ++ s.tree.files c.root h,
      s.tree.Apart s.recorder.file? p := by
  rwa [LogApart, sourceFiles_eq, manifestFiles_eq] at hlog

/-- Where a scan looks and what it reads is told without looking into files. -/
theorem LogApart.congr {S : Location → Prop} {s' : Session} (hlog : LogApart c g h s)
    (hsame : s.tree.SameBut S s'.tree) (hrec : s'.recorder.file? = s.recorder.file?) :
    LogApart c g h s' := by
  have hfiles := hlog.files
  rw [LogApart, sourceFiles_eq, manifestFiles_eq, ← hsame.similar.files_eq,
    ← hsame.similar.files_eq, hrec]
  intro p hp loc hloc
  rw [← hsame.leadsTo_eq]
  exact hfiles p hp loc hloc

/-- A scan answers findings and logs its lines. -/
theorem workspace_run (hp : patterns c = .ok (g, h)) (hlog : LogApart c g h s) :
    ((workspace c).run s).1 = .ok (findings c g h s.tree) ∧
      ((workspace c).run s).2.lines = s.lines ++ scanLines c g h s.tree := by
  obtain ⟨hanswer, -, -, hlines⟩ := workspace_logs hp hlog.files s rfl (.refl _ _)
  exact ⟨hanswer, hlines⟩

theorem LogApart.checkSource_answer (hlog : LogApart c g h s) {p : Path}
    (hp : p ∈ sourceFiles c g s) : ((checkSource p).run s).1 = sourceIssues s.tree p :=
  (checkSource_logs (hlog p (List.mem_append_left _ hp)) s rfl (.refl _ _)).1

theorem LogApart.checkManifest_answer (hlog : LogApart c g h s) {p : Path}
    (hp : p ∈ manifestFiles c h s) :
    ((checkManifest c.expectations p).run s).1 = manifestIssues c.expectations s.tree p :=
  (checkManifest_logs c.expectations (hlog p (List.mem_append_right _ hp)) s rfl (.refl _ _)).1

theorem mem_recorded_iff {check : Path → Run (List Issue)} {files : List Path} {p : Path}
    {issues : List Issue} : (p, issues) ∈ recorded check s files ↔
      p ∈ files ∧ ((check p).run s).1 = issues ∧ issues ≠ [] := by
  rw [recorded, List.mem_filter, List.mem_map]
  constructor
  · rintro ⟨⟨q, hq, heq⟩, hne⟩
    cases heq
    exact ⟨hq, rfl, by simpa using hne⟩
  · rintro ⟨hp, rfl, hne⟩
    exact ⟨⟨p, hp, rfl⟩, by simpa using hne⟩

theorem shown_recorded {check : Path → Run (List Issue)} {issues : Path → List Issue}
    {files : List Path} (hcheck : ∀ p ∈ files, ((check p).run s).1 = issues p) :
    (recorded check s files).map shownEntry =
      (checked issues files).filter fun e => !e.2.isEmpty := by
  have hanswers : files.map (fun p => (p, ((check p).run s).1)) =
      files.map fun p => (p, issues p) :=
    List.map_congr_left fun p hp => congrArg (Prod.mk p) (hcheck p hp)
  rw [recorded, checked, hanswers, List.filter_map, List.filter_map, List.map_map]
  rfl

/-- What a scan finds is the block of the sources before that of the manifests. -/
theorem entries_findings (hlog : LogApart c g h s) :
    (findings c g h s.tree).files.map FileIssues.entry =
      (sourceBlock c g s ++ manifestBlock c h s).map shownEntry := by
  have hsources : (sourceBlock c g s).map shownEntry = _ :=
    shown_recorded fun p hp => hlog.checkSource_answer hp
  have hmanifests : (manifestBlock c h s).map shownEntry = _ :=
    shown_recorded fun p hp => hlog.checkManifest_answer hp
  rw [findings, Findings.entries_recordAll, Findings.entries_recordAll, List.map_append, hsources,
    hmanifests, sourceFiles_eq, manifestFiles_eq]
  rfl

/-- The issues of a manifest are the one of a failure to load it, or each is
about an expectation and names the manifest. -/
theorem manifestIssues_cases (expectations : Expectations) (t : FileTree) (p : Path) :
    (∃ e, loadManifest t p = .error e ∧ manifestIssues expectations t p = [unloadable e]) ∨
      ∀ issue ∈ manifestIssues expectations t p, ∃ dep ∈ expectations.entries, ∃ rest,
        issue = dep.name ++ " in " ++ p.shown ++ ": " ++ rest := by
  rw [manifestIssues]
  rcases loadManifest t p with e | document
  · exact .inl ⟨e, rfl, rfl⟩
  · exact .inr fun issue hissue => Manifest.exists_of_mem_issues hissue

/-- **A scan finds a block of sources before a block of manifests**: what its
search finds, in that order, without the files that have no issues.  Each
failure to read or load is the one issue of its file, each other issue of a
manifest names it as its own entry does, and the last line of the log counts
what was found. -/
theorem workspace_blocks (hp : patterns c = .ok (g, h)) (hlog : LogApart c g h s) :
    ∃ f, ((workspace c).run s).1 = .ok f ∧
      f.files.map FileIssues.entry =
        (sourceBlock c g s ++ manifestBlock c h s).map shownEntry ∧
      (∀ file ∈ f.files, file.issues ≠ []) ∧
      (∀ p ∈ sourceFiles c g s, ∀ e, s.tree.readText p = .error e →
        (p, [unreadable e]) ∈ sourceBlock c g s) ∧
      (∀ p ∈ manifestFiles c h s, ∀ e, loadManifest s.tree p = .error e →
        (p, [unloadable e]) ∈ manifestBlock c h s) ∧
      (∀ entry ∈ manifestBlock c h s,
        (∃ e, loadManifest s.tree entry.1 = .error e ∧ entry.2 = [unloadable e]) ∨
        ∀ issue ∈ entry.2, ∃ dep ∈ c.expectations.entries, ∃ rest,
          issue = dep.name ++ " in " ++ (shownEntry entry).1 ++ ": " ++ rest) ∧
      f.size = (sourceBlock c g s ++ manifestBlock c h s).length ∧
      f.total = ((sourceBlock c g s ++ manifestBlock c h s).map fun e => e.2.length).sum ∧
      ((workspace c).run s).2.lines.getLast? =
        some ⟨.info, "Scan finished: " ++ toString f.size ++ " file(s) with " ++
          toString f.total ++ " issue(s)"⟩ := by
  obtain ⟨hanswer, hlines⟩ := workspace_run hp hlog
  have hentries := entries_findings hlog
  refine ⟨findings c g h s.tree, hanswer, hentries, fun file _ => file.nonempty,
    ?_, ?_, ?_, ?_, ?_, ?_⟩
  · -- a source that cannot be read
    intro p hfound e he
    apply mem_recorded_iff.mpr
    refine ⟨hfound, ?_, List.cons_ne_nil _ _⟩
    rw [hlog.checkSource_answer hfound, sourceIssues, he]
  · -- a manifest that cannot be loaded
    intro p hfound e he
    apply mem_recorded_iff.mpr
    refine ⟨hfound, ?_, List.cons_ne_nil _ _⟩
    rw [hlog.checkManifest_answer hfound, manifestIssues, he]
  · -- the entry of a manifest, under the path that was checked
    rintro ⟨p, issues⟩ hentry
    obtain ⟨hfound, rfl, -⟩ := mem_recorded_iff.mp hentry
    rw [hlog.checkManifest_answer hfound]
    exact manifestIssues_cases c.expectations s.tree p
  · rw [Findings.size_eq, hentries, List.length_map]
  · rw [Findings.total_eq, hentries, List.map_map]
    rfl
  · rw [hlines, scanLines, ← List.append_assoc, ← List.append_assoc, List.getLast?_concat]
    rfl

end Blocks

/-! ### A small workspace -/

/-- Sources below `src`, all else as it is without a configuration. -/
def smallConfig : Config :=
  { Config.initial with root := Path.dot, sourceDir := Bytes.ofText "src" }

/-- Where the source of the small workspace is. -/
def smallSource : Location :=
  [⟨Bytes.ofText "src", by decide⟩, ⟨Bytes.ofText "b.rs", by decide⟩]

/-- Where its manifest is. -/
def smallManifest : Location :=
  [⟨Bytes.ofText "Cargo.toml", by decide⟩]

/-- Where its log goes. -/
def smallLog : Location :=
  [⟨Bytes.ofText "run.log", by decide⟩]

/-- A source with a link to it, a manifest and a log. -/
def smallTree (source manifest : Bytes) : FileTree :=
  ⟨[(⟨Bytes.ofText "src", by decide⟩, .dir
      [(⟨Bytes.ofText "b.rs", by decide⟩, .file source),
        (⟨Bytes.ofText "a.rs", by decide⟩, .link (Bytes.ofText "b.rs"))]),
    (⟨Bytes.ofText "Cargo.toml", by decide⟩, .file manifest),
    (⟨Bytes.ofText "run.log", by decide⟩, .file [])], []⟩

/-- A session that logs into the small workspace. -/
def smallSession (source manifest : Bytes) : Session :=
  { Session.on (smallTree source manifest) with
    recorder := ⟨.upTo .debug, "now", some smallLog, true⟩ }

/-- A manifest with a version that is not the expected one. -/
def oldManifest : Bytes :=
  Bytes.ofText "[dependencies]\nsolana-sdk = \"1.0.0\"\n"

theorem smallTree_source (source source' manifest : Bytes) :
    (smallTree source manifest).SameBut (· = smallSource) (smallTree source' manifest) :=
  FileTree.sameBut_put (t := smallTree source manifest) rfl source'

theorem smallTree_manifest (source manifest manifest' : Bytes) :
    (smallTree source manifest).SameBut (· = smallManifest) (smallTree source manifest') :=
  FileTree.sameBut_put (t := smallTree source manifest) rfl manifest'

theorem smallSession_logApart (source manifest : Bytes) :
    LogApart smallConfig ⟨"*.rs"⟩ ⟨"Cargo.toml"⟩ (smallSession source manifest) := by
  have hempty : LogApart smallConfig ⟨"*.rs"⟩ ⟨"Cargo.toml"⟩ (smallSession [] []) := by
    have hfiles : sourceFiles smallConfig ⟨"*.rs"⟩ (smallSession [] []) ++
        manifestFiles smallConfig ⟨"Cargo.toml"⟩ (smallSession [] []) =
        ["./src/a.rs", "./src/b.rs", "./Cargo.toml"].map Bytes.ofText := by
      decide +kernel
    rw [LogApart, hfiles]
    intro p hp loc hloc
    cases hloc
    revert p
    decide +kernel
  have hsource : LogApart smallConfig ⟨"*.rs"⟩ ⟨"Cargo.toml"⟩ (smallSession source []) :=
    hempty.congr (smallTree_source [] source []) rfl
  exact hsource.congr (smallTree_manifest source [] manifest) rfl

/-- An open brace is found under both names of the source, a version in the
manifest, and the log says so although it is one of the files. -/
theorem small_workspace_blocks :
    ∃ f, ((workspace smallConfig).run (smallSession (Bytes.ofText "\x7b") oldManifest)).1 = .ok f ∧
      f.files.map FileIssues.entry =
        [("./src/a.rs", ["Unbalanced braces"]), ("./src/b.rs", ["Unbalanced braces"]),
          ("./Cargo.toml",
            ["solana-sdk in ./Cargo.toml: version 1.0.0, expected 1.25.0"])] ∧
      ((workspace smallConfig).run
          (smallSession (Bytes.ofText "\x7b") oldManifest)).2.lines.getLast? =
        some ⟨.info, "Scan finished: 3 file(s) with 3 issue(s)"⟩ := by
  obtain ⟨f, hanswer, hentries, -, -, -, -, hsize, htotal, hlast⟩ :=
    workspace_blocks (c := smallConfig) (g := ⟨"*.rs"⟩) (h := ⟨"Cargo.toml"⟩) rfl
      (smallSession_logApart (Bytes.ofText "\x7b") oldManifest)
  refine ⟨f, hanswer, ?_, ?_⟩
  · rw [hentries]
    decide +kernel
  · rw [hlast, hsize, htotal]
    decide +kernel

end WorkspaceAudit.Scan

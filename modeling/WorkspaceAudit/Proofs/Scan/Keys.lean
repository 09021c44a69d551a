/-
WorkspaceAudit/Proofs/Scan/Keys.lean

Findings as a table with paths for keys.

Findings are a list, and recording adds at its end without a look at what is
there.  A path is still the key of what is found: a search comes to nothing
twice, so within a pass no path stands twice, and where all names are text the
paths stay apart when they are shown.  What the two passes share is a file whose
last name matches both patterns.  Such a file may stand twice, and then a look
under its path shows only what the first pass said; the last example has one.

None of this asks where the log goes: a search does not look into files, so the
second pass finds the same whatever was logged during the first.
-/
import WorkspaceAudit.Proofs.Glob
import WorkspaceAudit.Proofs.Scan.Blocks
import WorkspaceAudit.Proofs.Tree.Spelling

namespace WorkspaceAudit.Scan

/-! ### What the passes add -/

/-- What a pass over files answers, of which those with issues are kept. -/
def kept (checked : List (String × List Issue)) : List (String × List Issue) :=
  checked.filter fun e => !e.2.isEmpty

/-- The first pass of a scan, and the session after it. -/
def firstPass (c : Config) (g : Glob) (s : Session) : List (String × List Issue) × Session :=
  (sources c.sourceRoot g).run s

/-- The second pass of a scan, and the session after it. -/
def secondPass (c : Config) (g h : Glob) (s : Session) : List (String × List Issue) × Session :=
  (manifests c.expectations c.root h).run (firstPass c g s).2

/-- Each file is checked, and under the path that is shown. -/
theorem map_fst_checkAll (check : Path → Run (List Issue)) (files : List Path) (s : Session) :
    ((checkAll check files).run s).1.map Prod.fst = files.map Bytes.shown := by
  -- on the files that are still to be checked, in whatever session
  induction files generalizing s with
  | nil => rfl
  | cons p files ih =>
    have hrest := ih ((check p).run s).2
    rw [checkAll] at hrest ⊢
    rw [List.mapM_cons]
    show p.shown :: _ = _
    rw [List.map_cons]
    exact congrArg (List.cons p.shown) hrest

section Passes

variable {c : Config} {g h : Glob} {s : Session}

theorem map_fst_firstPass (c : Config) (g : Glob) (s : Session) :
    (firstPass c g s).1.map Prod.fst = (s.tree.files c.sourceRoot g).map Bytes.shown := by
  rw [firstPass, sources, Run.run_bind, find_answer, Run.run_bind]
  apply map_fst_checkAll

/-- The second pass finds what it would have found first. -/
theorem map_fst_secondPass (c : Config) (g h : Glob) (s : Session) :
    (secondPass c g h s).1.map Prod.fst = (s.tree.files c.root h).map Bytes.shown := by
  have hsame := ((sources_records c.sourceRoot g).sameBut s).1
  have hfiles : (firstPass c g s).2.tree.files c.root h = s.tree.files c.root h :=
    (hsame.similar.files_eq c.root h).symm
  rw [secondPass, manifests, Run.run_bind, find_answer, hfiles, Run.run_bind]
  apply map_fst_checkAll

/-- What a scan finds is what the first pass adds and then the second. -/
theorem workspace_kept (hp : patterns c = .ok (g, h)) :
    ∃ f, ((workspace c).run s).1 = .ok f ∧
      f.files.map FileIssues.entry = kept (firstPass c g s).1 ++ kept (secondPass c g h s).1 := by
  refine ⟨(Findings.empty.recordAll (firstPass c g s).1).recordAll (secondPass c g h s).1, ?_, ?_⟩
  · rw [workspace, hp]
    rfl
  · rw [Findings.entries_recordAll, Findings.entries_recordAll]
    rfl

theorem map_fst_kept_sublist (checked : List (String × List Issue)) :
    List.Sublist ((kept checked).map Prod.fst) (checked.map Prod.fst) :=
  List.filter_sublist.map Prod.fst

end Passes

/-! ### Paths as keys -/

section Keys

variable {t : FileTree} (ht : t.entries.NamesAreText) {root root' : Path} {g h : Glob}
include ht

/-- No path is shown twice. -/
theorem nodup_shown_files (hroot : root.IsText) (g : Glob) :
    ((t.files root g).map Bytes.shown).Nodup := by
  apply (FileTree.files_nodup t root g).map_on
  intro p hp q hq hshown
  have hp' : p.IsText := FileTree.isText_of_mem_files ht hroot hp
  have hq' : q.IsText := FileTree.isText_of_mem_files ht hroot hq
  exact Bytes.shown_injective hp' hq' hshown

/-- What two searches show alike is one path, and its last name matches both
patterns. -/
theorem matches_of_shown_both (hroot : root.IsText) (hroot' : root'.IsText) {path : String}
    (hin : path ∈ (t.files root g).map Bytes.shown)
    (hin' : path ∈ (t.files root' h).map Bytes.shown) :
    ∃ n : Name, Path.lastName (Bytes.ofText path) = n.bytes ∧
      g.matchesName n.bytes.shown = true ∧ h.matchesName n.bytes.shown = true := by
  obtain ⟨p, hp, rfl⟩ := List.mem_map.mp hin
  obtain ⟨q, hq, hshown⟩ := List.mem_map.mp hin'
  have hp' : p.IsText := FileTree.isText_of_mem_files ht hroot hp
  have hq' : q.IsText := FileTree.isText_of_mem_files ht hroot' hq
  obtain rfl : q = p := Bytes.shown_injective hq' hp' hshown
  obtain ⟨n, hn, hg⟩ := FileTree.lastName_of_mem_files hp
  obtain ⟨m, hm, hh⟩ := FileTree.lastName_of_mem_files hq
  rw [hn] at hm
  rw [hp'.ofText_shown]
  refine ⟨n, hn, hg, ?_⟩
  rw [hm]
  exact hh

end Keys

theorem count_append_le_two {as bs : List String} (has : as.Nodup) (hbs : bs.Nodup) (a : String) :
    (as ++ bs).count a ≤ 2 := by
  have ha : as.count a ≤ 1 := List.nodup_iff_count_le_one.mp has a
  have hb : bs.count a ≤ 1 := List.nodup_iff_count_le_one.mp hbs a
  rw [List.count_append]
  omega

/-- Of two lists without repetitions, what stands twice stands in both. -/
theorem mem_both_of_count {as bs : List String} (has : as.Nodup) (hbs : bs.Nodup) {a : String}
    (h : 1 < (as ++ bs).count a) : a ∈ as ∧ a ∈ bs := by
  have ha : as.count a ≤ 1 := List.nodup_iff_count_le_one.mp has a
  have hb : bs.count a ≤ 1 := List.nodup_iff_count_le_one.mp hbs a
  rw [List.count_append] at h
  constructor
  · apply List.count_pos_iff.mp
    omega
  · apply List.count_pos_iff.mp
    omega

/-- Where no path stands twice, a look under the path of a file finds its
issues. -/
theorem get?_of_nodup {f : Findings} (hf : (f.files.map FileIssues.path).Nodup)
    {file : FileIssues} (hfile : file ∈ f.files) : f.get? file.path = some file.issues := by
  have hfind : f.files.find? (fun file' => file'.path == file.path) = some file :=
    (find?_eq_some_iff_of_nodup hf).mpr ⟨hfile, rfl⟩
  rw [Findings.get?, hfind]
  rfl

/-- **What is found is kept under its path.**  Where all names and the paths of
the configuration are text, neither pass adds a path twice, so none stands more
than twice; one that does has a last name that both patterns match.  If no name
is matched by both, all paths are different, and a look under the path of a file
answers its issues. -/
theorem workspace_keyed {c : Config} {g h : Glob} {s : Session}
    (hp : patterns c = .ok (g, h)) (hnames : s.tree.entries.NamesAreText)
    (hroot : c.root.IsText) (hdir : c.sourceDir.IsText) :
    ∃ f, ((workspace c).run s).1 = .ok f ∧
      f.files.map FileIssues.entry = kept (firstPass c g s).1 ++ kept (secondPass c g h s).1 ∧
      ((kept (firstPass c g s).1).map Prod.fst).Nodup ∧
      ((kept (secondPass c g h s).1).map Prod.fst).Nodup ∧
      (∀ path, (f.files.map FileIssues.path).count path ≤ 2) ∧
      (∀ path, 1 < (f.files.map FileIssues.path).count path →
        ∃ n : Name, Path.lastName (Bytes.ofText path) = n.bytes ∧
          g.matchesName n.bytes.shown = true ∧ h.matchesName n.bytes.shown = true) ∧
      ((∀ n : Name, ¬(g.matchesName n.bytes.shown = true ∧ h.matchesName n.bytes.shown = true)) →
        (f.files.map FileIssues.path).Nodup ∧
          ∀ file ∈ f.files, f.get? file.path = some file.issues) := by
  obtain ⟨f, hanswer, hentries⟩ := workspace_kept (s := s) hp
  have hsourceRoot : c.sourceRoot.IsText := Path.isText_join hroot hdir
  -- the paths of each pass, among those that its search shows
  have hfirst := map_fst_kept_sublist (firstPass c g s).1
  rw [map_fst_firstPass] at hfirst
  have hsecond := map_fst_kept_sublist (secondPass c g h s).1
  rw [map_fst_secondPass] at hsecond
  have hfirstNodup := (nodup_shown_files hnames hsourceRoot g).sublist hfirst
  have hsecondNodup := (nodup_shown_files hnames hroot h).sublist hsecond
  have hpaths : f.files.map FileIssues.path =
      (kept (firstPass c g s).1).map Prod.fst ++ (kept (secondPass c g h s).1).map Prod.fst := by
    rw [← List.map_append, ← hentries, List.map_map]
    rfl
  have htwice : ∀ path, 1 < (f.files.map FileIssues.path).count path →
      ∃ n : Name, Path.lastName (Bytes.ofText path) = n.bytes ∧
        g.matchesName n.bytes.shown = true ∧ h.matchesName n.bytes.shown = true := by
    intro path hcount
    rw [hpaths] at hcount
    obtain ⟨hin, hin'⟩ := mem_both_of_count hfirstNodup hsecondNodup hcount
    exact matches_of_shown_both hnames hsourceRoot hroot (hfirst.subset hin)
      (hsecond.subset hin')
  refine ⟨f, hanswer, hentries, hfirstNodup, hsecondNodup, ?_, htwice, ?_⟩
  · intro path
    rw [hpaths]
    exact count_append_le_two hfirstNodup hsecondNodup path
  · intro hapart
    have hnodup : (f.files.map FileIssues.path).Nodup := by
      apply List.nodup_iff_count_le_one.mpr
      intro path
      by_contra hcount
      obtain ⟨n, -, hboth⟩ := htwice path (not_le.mp hcount)
      exact hapart n hboth
    exact ⟨hnodup, fun file hfile => get?_of_nodup hnodup hfile⟩

/-! ### Files that one pattern or both match -/

theorem smallTree_namesAreText (source manifest : Bytes) :
    (smallTree source manifest).entries.NamesAreText := by
  have hsub : Entries.NamesAreText
      [(⟨Bytes.ofText "b.rs", by decide⟩, .file source),
        (⟨Bytes.ofText "a.rs", by decide⟩, .link (Bytes.ofText "b.rs"))] := by
    refine .cons ⟨"b.rs", rfl⟩ (fun _ h => by cases h) ?_
    exact .cons ⟨"a.rs", rfl⟩ (fun _ h => by cases h) .nil
  refine .cons ⟨"src", rfl⟩ (fun sub h => by cases h; exact hsub) ?_
  refine .cons ⟨"Cargo.toml", rfl⟩ (fun _ h => by cases h) ?_
  exact .cons ⟨"run.log", rfl⟩ (fun _ h => by cases h) .nil

/-- As configured at first no name is matched by both patterns, so in the small
workspace the file under each path has the issues that a look there finds. -/
theorem small_workspace_keyed :
    ∃ f, ((workspace smallConfig).run (smallSession (Bytes.ofText "\x7b") oldManifest)).1 = .ok f ∧
      f.files.map FileIssues.path = ["./src/a.rs", "./src/b.rs", "./Cargo.toml"] ∧
      (f.files.map FileIssues.path).Nodup ∧
      ∀ file ∈ f.files, f.get? file.path = some file.issues := by
  have hapart : ∀ n : Name, ¬(Glob.matchesName ⟨"*.rs"⟩ n.bytes.shown = true ∧
      Glob.matchesName ⟨"Cargo.toml"⟩ n.bytes.shown = true) := by
    rintro n ⟨hsource, hmanifest⟩
    have hliteral : ∀ c ∈ "Cargo.toml".toList, c ≠ '*' ∧ c ≠ '?' :=
      @of_decide_eq_true _ (List.decidableBAll _ _) (by decide +kernel)
    have hname : n.bytes.shown = "Cargo.toml" := (Glob.matchesName_iff_of_literal hliteral).mp hmanifest
    rw [hname] at hsource
    revert hsource
    decide +kernel
  obtain ⟨f, hanswer, hentries, -, -, -, -, hkeyed⟩ :=
    workspace_keyed (c := smallConfig) (g := ⟨"*.rs"⟩) (h := ⟨"Cargo.toml"⟩)
      (s := smallSession (Bytes.ofText "\x7b") oldManifest) rfl (smallTree_namesAreText _ _)
      ⟨".", by decide +kernel⟩ ⟨"src", rfl⟩
  obtain ⟨hnodup, hget⟩ := hkeyed hapart
  refine ⟨f, hanswer, ?_, hnodup, hget⟩
  have hpaths := congrArg (List.map Prod.fst) hentries
  rw [List.map_map] at hpaths
  refine Eq.trans hpaths ?_
  decide +kernel

-- With sources in the root itself, and a pattern for them that matches manifests
-- too, a manifest stands twice, and a look under its path does not find the version
-- in it.
example :
    ((workspace { smallConfig with sourceDir := [], sourcePattern := "*.toml" }).run
        (smallSession [] (Bytes.ofText "# \x7b\n[dependencies]\nsolana-sdk = '1.0.0'\n"))).1.map
        (fun f => (f.files.map FileIssues.entry, f.get? "./Cargo.toml")) =
      .ok ([("./Cargo.toml", ["Unbalanced braces"]),
        ("./Cargo.toml", ["solana-sdk in ./Cargo.toml: version 1.0.0, expected 1.25.0"])],
        some ["Unbalanced braces"]) := by
  decide +kernel

end WorkspaceAudit.Scan

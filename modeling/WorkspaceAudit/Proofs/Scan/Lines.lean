/-
WorkspaceAudit/Proofs/Scan/Lines.lean

Which issues are one line.

An issue is meant to be one line of the report, and most are made of words that
the program chose.  Two parts of an issue are not: the value that a manifest has
in the place of the expected one, and what is said of a manifest that is no
document.  Both are put into the issue as they come.

The headline says that nothing else can break an issue into lines, whatever the
scanned files hold, and that a report whose issues are whole has a line for
each file and each issue.  A string in a manifest can have a line feed and after
it whatever a line of the report looks like; the last section has one that
adds a file and an issue to the report.
-/
import WorkspaceAudit.Proofs.Report.Lines
import WorkspaceAudit.Proofs.Scan.Blocks
import WorkspaceAudit.Proofs.Source
import WorkspaceAudit.Proofs.Toml.Printing

namespace WorkspaceAudit

/-! ### The words of an issue -/

theorem mem_toList_append {c : Char} {s s' : String} :
    c ∈ (s ++ s').toList ↔ c ∈ s.toList ∨ c ∈ s'.toList := by
  rw [String.toList_append, List.mem_append]

/-- A text that is written out is looked through as the list of its characters. -/
theorem not_mem_toList_ofList {c : Char} {cs : List Char} (h : c ∉ cs) :
    c ∉ (String.ofList cs).toList := by
  rw [String.toList_ofList]
  exact h

theorem not_mem_toString (n : Nat) : '\n' ∉ (toString n).toList := by
  show '\n' ∉ (Nat.repr n).toList
  rw [Nat.toList_repr]
  exact not_mem_toDigits rfl n

namespace FileError

theorem not_mem_coded {words : String} (h : '\n' ∉ words.toList) (code : Nat) :
    '\n' ∉ (coded words code).toList := by
  have hbefore : '\n' ∉ " (os error ".toList := by
    apply not_mem_toList_ofList
    decide
  have hafter : '\n' ∉ ")".toList := by
    apply not_mem_toList_ofList
    decide
  unfold coded
  rw [mem_toList_append, mem_toList_append, mem_toList_append, or_iff_left hafter,
    or_iff_left (not_mem_toString code), or_iff_left hbefore]
  exact h

theorem not_mem_message (e : FileError) : '\n' ∉ e.message.toList := by
  cases e with
  | notText =>
    apply not_mem_toList_ofList
    decide
  | zeroByte =>
    apply not_mem_toList_ofList
    decide
  | _ =>
    apply not_mem_coded
    apply not_mem_toList_ofList
    decide

end FileError

namespace Source

theorem not_mem_retiredNotice : '\n' ∉ retiredNotice.toList := by
  apply not_mem_toList_ofList
  decide

theorem not_mem_notice {d : Delimiters} (h : d ∈ delimiters) : '\n' ∉ d.notice.toList := by
  simp only [delimiters, List.mem_cons, List.not_mem_nil, or_false] at h
  rcases h with rfl | rfl | rfl
  all_goals
    apply not_mem_toList_ofList
    decide

theorem not_mem_issues {text : String} {issue : Issue} (h : issue ∈ issues text) :
    '\n' ∉ issue.toList := by
  rcases mem_issues_iff.mp h with ⟨-, rfl⟩ | ⟨d, hd, -, rfl⟩
  · exact not_mem_retiredNotice
  · exact not_mem_notice hd

end Source

namespace Manifest

/-- A found value in words has a line feed if a string inside it has one. -/
theorem mem_foundText_iff {found : Option Toml.Value} :
    '\n' ∈ (foundText found).toList ↔ ∃ v, found = some v ∧ v.Broken := by
  rcases found with - | v
  · refine iff_of_false (by decide) ?_
    rintro ⟨v, hv, -⟩
    cases hv
  · have hwords : '\n' ∈ (foundText (some v)).toList ↔ v.Broken := by
      cases v with
      | string s => exact Toml.Value.broken_string_iff.symm
      | _ =>
        rw [foundText, String.toList_ofList]
        · exact Toml.Value.mem_aloneText_iff _
        · intro s hs
          cases hs
    rw [hwords]
    simp

/-- No string of the expectation has a line feed. -/
def PlainExpectation (e : Expectation) : Prop :=
  '\n' ∉ e.name.toList ∧ '\n' ∉ e.version.toList ∧ '\n' ∉ e.path.toList

/-- The line about a deviation is broken by what was found, and by nothing
else. -/
theorem mem_line_iff {label : String} {d : Deviation} (hlabel : '\n' ∉ label.toList)
    (he : PlainExpectation d.expectation) :
    '\n' ∈ (d.line label).toList ↔ ∃ v, d.found = some v ∧ v.Broken := by
  obtain ⟨hname, hversion, hpath⟩ := he
  have hkey : '\n' ∉ d.field.key.toList := by cases d.field <;> decide
  have hrequired : '\n' ∉ (d.field.required d.expectation).toList := by
    cases d.field with
    | version => exact hversion
    | path => exact hpath
  rw [← mem_foundText_iff, Deviation.line]
  simp [hname, hlabel, hkey, hrequired]

end Manifest

/-! ### Scans -/

namespace Scan

/-- Nothing that an issue would show of the manifest has a line feed: no value
that deviates, or nothing that is said of a text that is no document. -/
def Plain (expectations : Expectations) : Except Manifest.LoadError Toml.Value → Prop
  | .ok document => ∀ d ∈ Manifest.deviations expectations document,
      ∀ v, d.found = some v → ¬ v.Broken
  | .error (.malformed message _) => '\n' ∉ message.toList
  | .error (.unreadable _) => True

theorem not_mem_sourceIssues {t : FileTree} {p : Path} :
    ∀ issue ∈ sourceIssues t p, '\n' ∉ issue.toList := by
  have hwords : '\n' ∉ "Error reading file: ".toList := by
    apply not_mem_toList_ofList
    decide
  intro issue h
  unfold sourceIssues at h
  split at h
  · exact Source.not_mem_issues h
  · next e _ =>
    obtain rfl : issue = unreadable e := List.mem_singleton.mp h
    unfold unreadable
    rw [mem_toList_append]
    exact not_or.mpr ⟨hwords, e.not_mem_message⟩

theorem expectation_of_mem_deviations {t : Expectations} {document : Toml.Value}
    {d : Manifest.Deviation} (h : d ∈ Manifest.deviations t document) :
    d.expectation ∈ t.entries := by
  obtain ⟨fs, -, e, he, v, -, hd⟩ := Manifest.mem_deviations_iff.mp h
  rw [Manifest.expectation_of_mem_deviationsOf hd]
  exact he

/-- The issues of a manifest are whole exactly if nothing in them that comes from
it has a line feed. -/
theorem manifestIssues_whole_iff {expectations : Expectations} {t : FileTree} {p : Path}
    (hp : '\n' ∉ p.shown.toList)
    (htable : ∀ e ∈ expectations.entries, Manifest.PlainExpectation e) :
    (∀ issue ∈ manifestIssues expectations t p, '\n' ∉ issue.toList) ↔
      Plain expectations (loadManifest t p) := by
  rw [manifestIssues]
  rcases loadManifest t p with e | document
  · have hwords : '\n' ∉ "Error reading Cargo.toml: ".toList := by
      apply not_mem_toList_ofList
      decide
    have hword : '\n' ∈ (unloadable e).toList ↔ '\n' ∈ e.message.toList := by
      unfold unloadable
      rw [mem_toList_append]
      exact or_iff_right hwords
    have hone : (∀ issue ∈ [unloadable e], '\n' ∉ issue.toList) ↔ '\n' ∉ e.message.toList := by
      rw [← not_iff_not.mpr hword]
      simp
    apply hone.trans
    cases e with
    | unreadable e => exact iff_of_true e.not_mem_message trivial
    | malformed message line =>
      have hbefore : '\n' ∉ " (line ".toList := by
        apply not_mem_toList_ofList
        decide
      have hafter : '\n' ∉ ")".toList := by
        apply not_mem_toList_ofList
        decide
      rw [Plain, Manifest.LoadError.message, mem_toList_append, mem_toList_append,
        mem_toList_append, or_iff_left hafter, or_iff_left (not_mem_toString line),
        or_iff_left hbefore]
  · -- each deviation is about an entry of the table
    have hdeviation : ∀ d ∈ Manifest.deviations expectations document,
        ('\n' ∉ (d.line p.shown).toList ↔ ∀ v, d.found = some v → ¬ v.Broken) := by
      intro d hd
      have he := htable _ (expectation_of_mem_deviations hd)
      rw [Manifest.mem_line_iff hp he, not_exists]
      exact forall_congr' fun v => not_and
    show (∀ issue ∈ (Manifest.deviations expectations document).map _, _) ↔ _
    rw [List.forall_mem_map]
    exact forall₂_congr hdeviation

section Whole

variable {c : Config} {g h : Glob} {s : Session}

/-- The issues that are found are whole if those of every manifest are. -/
theorem findings_whole_iff (hlog : LogApart c g h s)
    (hpaths : ∀ p ∈ manifestFiles c h s, '\n' ∉ p.shown.toList)
    (htable : ∀ e ∈ c.expectations.entries, Manifest.PlainExpectation e) :
    (∀ file ∈ (findings c g h s.tree).files, ∀ issue ∈ file.issues, '\n' ∉ issue.toList) ↔
      ∀ p ∈ manifestFiles c h s, Plain c.expectations (loadManifest s.tree p) := by
  have hentries := entries_findings hlog
  have hfiles : (∀ file ∈ (findings c g h s.tree).files, ∀ issue ∈ file.issues,
        '\n' ∉ issue.toList) ↔
      ∀ e ∈ sourceBlock c g s ++ manifestBlock c h s, ∀ issue ∈ e.2, '\n' ∉ issue.toList := by
    have hmap : ∀ entries : List (String × List Issue),
        entries = (findings c g h s.tree).files.map FileIssues.entry →
        ((∀ file ∈ (findings c g h s.tree).files, ∀ issue ∈ file.issues, '\n' ∉ issue.toList) ↔
          ∀ e ∈ entries, ∀ issue ∈ e.2, '\n' ∉ issue.toList) := by
      rintro _ rfl
      rw [List.forall_mem_map]
      rfl
    rw [hmap _ hentries.symm, List.forall_mem_map]
    rfl
  rw [hfiles]
  constructor
  · intro hwhole p hp
    apply (manifestIssues_whole_iff (hpaths p hp) htable).mp
    intro issue hissue
    have hanswer := hlog.checkManifest_answer hp
    have hmem : (p, manifestIssues c.expectations s.tree p) ∈ manifestBlock c h s :=
      mem_recorded_iff.mpr ⟨hp, hanswer, List.ne_nil_of_mem hissue⟩
    exact hwhole _ (List.mem_append_right _ hmem) issue hissue
  · rintro hplain ⟨p, issues⟩ hmem
    rcases List.mem_append.mp hmem with hsource | hmanifest
    · obtain ⟨hp, rfl, -⟩ := mem_recorded_iff.mp hsource
      rw [hlog.checkSource_answer hp]
      exact not_mem_sourceIssues
    · obtain ⟨hp, rfl, -⟩ := mem_recorded_iff.mp hmanifest
      rw [hlog.checkManifest_answer hp]
      exact (manifestIssues_whole_iff (hpaths p hp) htable).mpr (hplain p hp)

/-- **What can break an issue into lines**: with paths and a table without line
feeds, a string inside a value that deviates, or what is said of a manifest that
is no document, and nothing in a source.  Where none of these has a line feed the
report has one line that starts as that of a file for each file, and one that
starts as that of an issue for each issue. -/
theorem workspace_lines (hp : patterns c = .ok (g, h)) (hlog : LogApart c g h s)
    (hpaths : ∀ p ∈ sourceFiles c g s ++ manifestFiles c h s, '\n' ∉ p.shown.toList)
    (htable : ∀ e ∈ c.expectations.entries, Manifest.PlainExpectation e) :
    ∃ f, ((workspace c).run s).1 = .ok f ∧
      ((∀ file ∈ f.files, ∀ issue ∈ file.issues, '\n' ∉ issue.toList) ↔
        ∀ p ∈ manifestFiles c h s, Plain c.expectations (loadManifest s.tree p)) ∧
      ((∀ p ∈ manifestFiles c h s, Plain c.expectations (loadManifest s.tree p)) →
        (Report.lines (Report.text f)).countP Report.startsFile = f.size ∧
        (Report.lines (Report.text f)).countP Report.startsIssue = f.total) := by
  have hwhole := findings_whole_iff hlog (fun p hp => hpaths p (List.mem_append_right _ hp)) htable
  refine ⟨findings c g h s.tree, (workspace_run hp hlog).1, hwhole, ?_⟩
  intro hplain
  apply Report.countP_lines_text
  intro file hfile
  refine ⟨?_, hwhole.mpr hplain file hfile⟩
  -- the path of a file is one of those that were found
  have hentry : file.entry ∈ (sourceBlock c g s ++ manifestBlock c h s).map shownEntry := by
    rw [← entries_findings hlog]
    exact List.mem_map_of_mem hfile
  obtain ⟨⟨p, issues⟩, hmem, heq⟩ := List.mem_map.mp hentry
  have hpath : file.path = p.shown := (congrArg Prod.fst heq).symm
  rw [hpath]
  apply hpaths
  rcases List.mem_append.mp hmem with hsource | hmanifest
  · exact List.mem_append_left _ (mem_recorded_iff.mp hsource).1
  · exact List.mem_append_right _ (mem_recorded_iff.mp hmanifest).1

end Whole

/-! ### A manifest that adds to the report -/

theorem smallConfig_plain :
    ∀ e ∈ smallConfig.expectations.entries, Manifest.PlainExpectation e := by
  intro e he
  change e ∈ Expectations.builtin.entries at he
  simp only [Expectations.builtin, List.mem_cons, List.not_mem_nil, or_false] at he
  rcases he with rfl | rfl | rfl | rfl
  all_goals
    refine ⟨?_, ?_, ?_⟩ <;> apply not_mem_toList_ofList <;> decide

/-- In the small workspace every issue is whole, so the report has a line for each
of the three files and each of their issues. -/
theorem small_workspace_lines :
    ∃ f, ((workspace smallConfig).run (smallSession (Bytes.ofText "\x7b") oldManifest)).1 = .ok f ∧
      (Report.lines (Report.text f)).countP Report.startsFile = f.size ∧
      (Report.lines (Report.text f)).countP Report.startsIssue = f.total ∧ f.size = 3 := by
  obtain ⟨f, hanswer, hwhole, hlines⟩ :=
    workspace_lines (c := smallConfig) (g := ⟨"*.rs"⟩) (h := ⟨"Cargo.toml"⟩) rfl
      (smallSession_logApart (Bytes.ofText "\x7b") oldManifest) (by decide +kernel)
      smallConfig_plain
  -- what is found, and that none of it has a line feed
  have hentries : ((workspace smallConfig).run
      (smallSession (Bytes.ofText "\x7b") oldManifest)).1.map (·.files.map FileIssues.entry) =
        .ok [("./src/a.rs", ["Unbalanced braces"]), ("./src/b.rs", ["Unbalanced braces"]),
          ("./Cargo.toml", ["solana-sdk in ./Cargo.toml: version 1.0.0, expected 1.25.0"])] := by
    decide +kernel
  rw [hanswer] at hentries
  have hfound : f.files.map FileIssues.entry = _ := Except.ok.inj hentries
  have hissues : ∀ e ∈ f.files.map FileIssues.entry, ∀ issue ∈ e.2, '\n' ∉ issue.toList := by
    rw [hfound]
    decide +kernel
  have hplain := hwhole.mp fun file hfile => hissues file.entry (List.mem_map_of_mem hfile)
  obtain ⟨hfile, hissue⟩ := hlines hplain
  refine ⟨f, hanswer, hfile, hissue, ?_⟩
  rw [Findings.size_eq, hfound]
  rfl

/-- A version with line feeds, after which stands what a report would hold. -/
def forgedManifest : Bytes :=
  Bytes.ofText "[dependencies]\nsolana-sdk = \"1\\nFile: ./other\\n  - forged\"\n"

/-- The one issue that is found in it. -/
def forgedFindings : Findings :=
  ⟨[⟨"./Cargo.toml", ["solana-sdk in ./Cargo.toml: version 1\nFile: ./other\n" ++
    "  - forged, expected 1.25.0"], by simp⟩]⟩

/-- Neither a path nor the table has a line feed, and yet the one issue that is
found has two, and the report on it names two files and two issues; what is said
of a header without its end is two lines as well. -/
theorem forged_lines :
    (sourceFiles smallConfig ⟨"*.rs"⟩ (smallSession [] forgedManifest) ++
        manifestFiles smallConfig ⟨"Cargo.toml"⟩ (smallSession [] forgedManifest)).all
          (fun p => !p.shown.toList.contains '\n') = true ∧
      smallConfig.expectations.entries.all (fun e => !e.name.toList.contains '\n' &&
        !e.version.toList.contains '\n' && !e.path.toList.contains '\n') = true ∧
      ((workspace smallConfig).run (smallSession [] forgedManifest)).1 = .ok forgedFindings ∧
      forgedFindings.size = 1 ∧ forgedFindings.total = 1 ∧
      (Report.lines (Report.text forgedFindings)).countP Report.startsFile = 2 ∧
      (Report.lines (Report.text forgedFindings)).countP Report.startsIssue = 2 ∧
      ((workspace smallConfig).run (smallSession [] (Bytes.ofText "[package\n"))).1.map
          (·.files.map FileIssues.entry) =
        .ok [("./Cargo.toml", ["Error reading Cargo.toml: invalid table header\n" ++
          "expected \x60.\x60, \x60]\x60 (line 1)"])] := by
  have hlines : Report.lines (Report.text forgedFindings) =
      (Report.heading ++ Report.body forgedFindings).splitOn '\n' := by
    rw [Report.lines, Report.text, String.toList_ofList]
  rw [hlines]
  refine ⟨?_, ?_, ?_, rfl, rfl, ?_, ?_, ?_⟩ <;> decide +kernel

end Scan

end WorkspaceAudit

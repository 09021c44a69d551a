/-
WorkspaceAudit/Proofs/Scan/Sources.lean

What a source is reported for, by its bytes.

A check of a source decodes its bytes and then looks at characters.  `Shows`
says without decoding what the bytes must be like for each issue: the bytes of
the retired name stand in them, or the byte that opens a pair of delimiters is
not there as often as the byte that closes it.  All these bytes are ASCII, so
they are never a part of another character, and it makes no difference on which
side of the decoding they are looked for.

The headline is about every file that can be read: bytes that encode no text
have the one issue of that, and all others have, in the fixed order of
`notices`, exactly the issues that their bytes show.
-/
import WorkspaceAudit.Proofs.Scan.Blocks
import WorkspaceAudit.Proofs.Source
import WorkspaceAudit.Proofs.Text.Encoded

namespace WorkspaceAudit

/-! ### Issues by the bytes -/

namespace Source

/-- What a source can be reported for, in the order of the report. -/
def notices : List Issue :=
  ["ProgramResult used, may be incompatible with solana-program v2.1.0",
   "Unbalanced braces", "Unbalanced parentheses", "Unbalanced brackets"]

/-- `Shows bytes issue`: what the bytes of a source hold is what the issue is
about. -/
inductive Shows (bytes : Bytes) : Issue → Prop
  | retired : Bytes.ofText "ProgramResult" <:+: bytes →
      Shows bytes "ProgramResult used, may be incompatible with solana-program v2.1.0"
  | braces : bytes.count 0x7B ≠ bytes.count 0x7D → Shows bytes "Unbalanced braces"
  | parentheses : bytes.count 0x28 ≠ bytes.count 0x29 → Shows bytes "Unbalanced parentheses"
  | brackets : bytes.count 0x5B ≠ bytes.count 0x5D → Shows bytes "Unbalanced brackets"

/-- The issues of a text keep the order of the notices, and none comes twice. -/
theorem issues_sublist (text : String) : (issues text).Sublist notices := by
  have hname : (if occursIn retiredName.toList text.toList then [retiredNotice] else []).Sublist
      [retiredNotice] := by
    split
    · exact List.Sublist.refl _
    · exact List.nil_sublist _
  have hpairs : ((delimiters.filter fun d => text.toList.count d.opening !=
      text.toList.count d.closing).map Delimiters.notice).Sublist
        (delimiters.map Delimiters.notice) :=
    List.filter_sublist.map _
  rw [issues_eq]
  exact hname.append hpairs

/-- A pair occurs unequally often in a text exactly if its bytes do. -/
theorem count_ne_iff {d : Delimiters} (hd : IsAscii d.opening ∧ IsAscii d.closing)
    (text : String) :
    text.toList.count d.opening ≠ text.toList.count d.closing ↔
      (Bytes.ofText text).count d.opening.toUInt8 ≠
        (Bytes.ofText text).count d.closing.toUInt8 := by
  rw [Bytes.count_ofText hd.1, Bytes.count_ofText hd.2]

/-- **The issues of a text are those that its bytes show.** -/
theorem mem_issues_iff_shows {text : String} {issue : Issue} :
    issue ∈ issues text ↔ Shows (Bytes.ofText text) issue := by
  have hname : retiredName.toList <:+: text.toList ↔
      Bytes.ofText "ProgramResult" <:+: Bytes.ofText text :=
    (Bytes.infix_ofText_iff (by decide)).symm
  rw [mem_issues_iff, hname]
  constructor
  · rintro (⟨hoccurs, rfl⟩ | ⟨d, hd, hcount, rfl⟩)
    · exact .retired hoccurs
    · simp only [delimiters, List.mem_cons, List.not_mem_nil, or_false] at hd
      rcases hd with rfl | rfl | rfl
      · exact .braces ((count_ne_iff (by decide) text).mp hcount)
      · exact .parentheses ((count_ne_iff (by decide) text).mp hcount)
      · exact .brackets ((count_ne_iff (by decide) text).mp hcount)
  · intro h
    cases h with
    | retired hoccurs => exact .inl ⟨hoccurs, rfl⟩
    | braces hcount =>
      exact .inr ⟨⟨'{', '}', "Unbalanced braces"⟩, by simp [delimiters],
        (count_ne_iff (by decide) text).mpr hcount, rfl⟩
    | parentheses hcount =>
      exact .inr ⟨⟨'(', ')', "Unbalanced parentheses"⟩, by simp [delimiters],
        (count_ne_iff (by decide) text).mpr hcount, rfl⟩
    | brackets hcount =>
      exact .inr ⟨⟨'[', ']', "Unbalanced brackets"⟩, by simp [delimiters],
        (count_ne_iff (by decide) text).mpr hcount, rfl⟩

end Source

/-! ### Files -/

namespace Scan

/-- A check answers for the files as they are when the line about it is in the
log. -/
theorem checkSource_answer (p : Path) (s : Session) :
    ((checkSource p).run s).1 =
      sourceIssues (s.record ⟨.debug, "Analyzing source file: " ++ p.shown⟩).tree p := by
  unfold checkSource sourceIssues
  rw [Run.run_bind, Run.run_say, Run.run_bind, Run.run_ask]
  dsimp only
  generalize (s.record _).tree.readText p = answer
  cases answer <;> rfl

/-- **A source is reported for what its bytes show.**  Bytes that encode no text
are reported for that alone.  All others have just the issues that their bytes
show, in the order of the notices and each once.  The bytes are those that the
file holds when the line about the check is in the log, which may be that very
file. -/
theorem checkSource_bytes {s : Session} {p : Path} {bytes : Bytes}
    (h : (s.record ⟨.debug, "Analyzing source file: " ++ p.shown⟩).tree.readBytes p =
      .ok bytes) :
    ((∀ text, bytes ≠ Bytes.ofText text) →
      ((checkSource p).run s).1 =
        ["Error reading file: stream did not contain valid UTF-8"]) ∧
    ∀ text, bytes = Bytes.ofText text →
      ((checkSource p).run s).1.Sublist Source.notices ∧
        ∀ issue, issue ∈ ((checkSource p).run s).1 ↔ Source.Shows bytes issue := by
  rw [checkSource_answer]
  constructor
  · intro hno
    rw [sourceIssues, FileTree.readText_of_not_text h hno]
    rfl
  · rintro text rfl
    rw [sourceIssues, FileTree.readText_eq_ok_iff.mpr h]
    exact ⟨Source.issues_sublist text, fun _ => Source.mem_issues_iff_shows⟩

/-- An open brace, an opening parenthesis of another script and the retired name
in a longer one. -/
def oddSource : Bytes :=
  Bytes.ofText "\x7b （ // ProgramResults"

/-- The brace and the name are reported, and the parenthesis is none. -/
theorem odd_checkSource_bytes :
    ((smallSession oddSource oldManifest).record
        ⟨.debug, "Analyzing source file: ./src/a.rs"⟩).tree.readBytes
          (Bytes.ofText "./src/a.rs") = .ok oddSource ∧
      ((checkSource (Bytes.ofText "./src/a.rs")).run (smallSession oddSource oldManifest)).1 =
        ["ProgramResult used, may be incompatible with solana-program v2.1.0",
          "Unbalanced braces"] ∧
      Source.Shows oddSource "Unbalanced braces" ∧
      ¬ Source.Shows oddSource "Unbalanced parentheses" := by
  have hread : ((smallSession oddSource oldManifest).record
      ⟨.debug, "Analyzing source file: ./src/a.rs"⟩).tree.readBytes
        (Bytes.ofText "./src/a.rs") = .ok oddSource := by
    decide +kernel
  have hissues := ((checkSource_bytes (p := Bytes.ofText "./src/a.rs") hread).2 _ rfl).2
  have hanswer : ((checkSource (Bytes.ofText "./src/a.rs")).run
      (smallSession oddSource oldManifest)).1 =
        ["ProgramResult used, may be incompatible with solana-program v2.1.0",
          "Unbalanced braces"] := by
    decide +kernel
  rw [hanswer] at hissues
  exact ⟨hread, hanswer, (hissues _).mp (by simp), fun h => by simpa using (hissues _).mpr h⟩

end Scan

end WorkspaceAudit

/-
WorkspaceAudit/Proofs/Scan/Malformed.lean

The line that is told of a manifest that is no document.

A reader of TOML says at which byte a text fails, if it can.  What is told of the text
is the line of that byte (`Text.IsLineOf`), whatever the reader says: with a place of
the text it is the line that the place is on, and with no place, or with one past the
end or within a character, it is the first.  Since reading a text fails at a place of
it (`Toml.parse_place`), the line of a malformed manifest is always the one that holds
its error (`loadManifest_line`).
-/
import WorkspaceAudit.Proofs.Scan.Blocks
import WorkspaceAudit.Proofs.Toml.Places

namespace WorkspaceAudit

theorem Manifest.ofText_eq_malformed_iff {text : String} {message : String} {line : Nat} :
    Manifest.ofText text = .error (.malformed message line) ↔
      ∃ e, Toml.parse text = .error e ∧
        Manifest.LoadError.ofParse text e = .malformed message line := by
  rw [Manifest.ofText]
  rcases Toml.parse text with e | v
  · simp
  · simp

namespace Scan

/-- A manifest is malformed if its bytes are a text that cannot be read. -/
theorem loadManifest_eq_malformed_iff {t : FileTree} {p : Path} {message : String} {line : Nat} :
    loadManifest t p = .error (.malformed message line) ↔
      ∃ text e, t.readBytes p = .ok (Bytes.ofText text) ∧ Toml.parse text = .error e ∧
        Manifest.LoadError.ofParse text e = .malformed message line := by
  simp only [← FileTree.readText_eq_ok_iff]
  rw [loadManifest]
  rcases t.readText p with e | text
  · simp
  · simp [Manifest.ofText_eq_malformed_iff]

/-- **A malformed manifest is reported on the line that holds its error.**  Whatever a
reader of TOML says of a text, the line that is told is that of the place it names, or
the first if it names no place of the text; and a manifest is malformed at a line
exactly if its text fails, where its bytes part into those of two texts, and that is
the line of this place. -/
theorem loadManifest_line :
    (∀ (text : String) (e : Toml.ParseError), ∃ line,
      Manifest.LoadError.ofParse text e = .malformed e.message line ∧
        Text.IsLineOf text.toList e.offset? line) ∧
    ∀ (t : FileTree) (p : Path) (message : String) (line : Nat),
      loadManifest t p = .error (.malformed message line) ↔
        ∃ before after e, t.readBytes p = .ok (Bytes.ofText (before ++ after)) ∧
          Toml.parse (before ++ after) = .error e ∧ e.message = message ∧
          e.offset? = some (Bytes.ofText before).length ∧
          Text.IsLineOf (before ++ after).toList e.offset? line := by
  have hline := fun (text : String) (e : Toml.ParseError) =>
    Text.isLineOf_lineAt text.toList e.offset?
  refine ⟨fun text e => ⟨_, rfl, hline text e⟩, fun t p message line => ?_⟩
  rw [loadManifest_eq_malformed_iff]
  constructor
  · rintro ⟨text, e, hbytes, hparse, ⟨⟩⟩
    obtain ⟨before, after, rfl, hoffset⟩ := Toml.parse_place hparse
    exact ⟨before, after, e, hbytes, hparse, rfl, hoffset, hline _ e⟩
  · rintro ⟨before, after, e, hbytes, hparse, rfl, hoffset, hsaid⟩
    have hplace := Text.isPlace_toList_iff.mpr ⟨before, after, rfl, rfl⟩
    -- only one line is that of a place, so the line that is said is the one that is told
    have hread := hline (before ++ after) e
    rw [hoffset] at hread hsaid
    refine ⟨before ++ after, e, hbytes, hparse, ?_⟩
    rw [Manifest.LoadError.ofParse, hoffset, hread.unique hsaid hplace]

/-- An array without its end, after a line of two bytes a character. -/
def openArray : String := "# ä\r\na = [\n"

theorem openArray_malformed :
    loadManifest (smallTree [] (Bytes.ofText openArray)) (Bytes.ofText "./Cargo.toml") =
      .error (.malformed "invalid array\nexpected \x60]\x60" 3) := by
  have hanswer : (loadManifest (smallTree [] (Bytes.ofText openArray))
        (Bytes.ofText "./Cargo.toml")).map (fun _ => ()) =
      .error (.malformed "invalid array\nexpected \x60]\x60" 3) := by
    decide +kernel
  revert hanswer
  rcases loadManifest _ _ with e | document
  · exact fun h => congrArg Except.error (Except.error.inj h)
  · exact nofun

/-- The array is missed at the end of the text, which is on the line after its last
line feed; a reader that named no place, or one within the `ä`, would have it on the
first line. -/
theorem openArray_line :
    (∃ before after, before ++ after = openArray ∧
      ∀ n, Text.OnLine openArray.toList n (Bytes.ofText before).length ↔ n = 3) ∧
    (∃ line, Manifest.LoadError.ofParse openArray ⟨"", none⟩ = .malformed "" line ∧ line = 1) ∧
    ∃ line, Manifest.LoadError.ofParse openArray ⟨"", some 3⟩ = .malformed "" line ∧ line = 1 := by
  obtain ⟨hsaid, hmalformed⟩ := loadManifest_line
  refine ⟨?read, ?unknown, ?within⟩
  case read =>
    obtain ⟨before, after, e, hbytes, -, -, hoffset, hline⟩ :=
      (hmalformed _ _ _ _).mp openArray_malformed
    have hread : (smallTree [] (Bytes.ofText openArray)).readBytes (Bytes.ofText "./Cargo.toml") =
        .ok (Bytes.ofText openArray) := by
      decide +kernel
    have htext : before ++ after = openArray :=
      Bytes.ofText_injective (Except.ok.inj (hbytes.symm.trans hread))
    refine ⟨before, after, htext, fun n => ?_⟩
    rw [← htext]
    exact hline.onLine_iff _ hoffset (Text.isPlace_toList_iff.mpr ⟨before, after, rfl, rfl⟩) n
  case unknown =>
    obtain ⟨line, heq, hline⟩ := hsaid openArray ⟨"", none⟩
    exact ⟨line, heq, hline.eq_one nofun⟩
  case within =>
    obtain ⟨line, heq, hline⟩ := hsaid openArray ⟨"", some 3⟩
    refine ⟨line, heq, hline.eq_one ?_⟩
    rintro _ ⟨⟩
    decide

end Scan

end WorkspaceAudit

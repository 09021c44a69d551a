/-
WorkspaceAudit/Proofs/Tree/Alongside.lean

The same done to two trees.

Two trees that differ in the contents of some files (`SameBut`), or in files
that were written (`Written`), take a write to the same place, and what they
differ in stays where it was (`SameBut.write`, `Written.write`).  After the write
the same is at its location in both, and elsewhere each looks as it did before
(`Takes.at?_write`, `Takes.map_write_of_ne`).

Opening a file for the log is a change of the second kind (`written_openFile`).
-/
import WorkspaceAudit.Proofs.Tree.Stations

namespace WorkspaceAudit

/-- What is left of a node, or of a free name, that takes a content: a device
stays, all else is a file with the content. -/
def Node.taking (b : Bytes) : Option Node → Node
  | some (.device d) => .device d
  | _ => .file b

theorem Node.taking_of_shape (b : Bytes) {o o' : Option Node}
    (h : o.map shape = o'.map shape) : taking b o = taking b o' := by
  rcases o with - | x
  · rcases o' with - | x'
    · rfl
    · cases h
  · rcases o' with - | x'
    · cases h
    · cases x <;> cases x' <;> cases h <;> rfl

namespace FileTree

variable {t t' : FileTree} {p : Path} {loc : Location} {b : Bytes} {S : Location → Prop}

/-! ### After a write -/

theorem Takes.at?_write (h : t.Takes loc) (b : Bytes) :
    (t.write loc b).at? loc = some (Node.taking b (t.at? loc)) := by
  cases h with
  | new hnone hslot =>
    simp only [write, hnone]
    exact hslot.at?_put b
  | file hfile hslot =>
    simp only [write, hfile]
    exact hslot.at?_put b
  | device hdevice =>
    simp only [write, hdevice]
    rfl

/-- What is seen of a node at another location is what was seen there before. -/
theorem Takes.map_write_of_ne {α : Type} (look : Shape × Option Bytes → α) (h : t.Takes loc)
    (b : Bytes) {l : Location} (hl : l ≠ loc) :
    ((t.write loc b).at? l).map (look ∘ Node.face) = (t.at? l).map (look ∘ Node.face) := by
  have hface := (h.written b).outside l hl
  rw [← Option.map_map, ← hface, Option.map_map]

/-- What looked alike in two trees does so after a write to both. -/
theorem Takes.map_write_congr {α : Type} (look : Shape × Option Bytes → α) (h : t.Takes loc)
    (h' : t'.Takes loc) (hsame : Node.taking b (t.at? loc) = Node.taking b (t'.at? loc))
    {l : Location} (hl : (t.at? l).map (look ∘ Node.face) = (t'.at? l).map (look ∘ Node.face)) :
    ((t.write loc b).at? l).map (look ∘ Node.face) =
      ((t'.write loc b).at? l).map (look ∘ Node.face) := by
  by_cases hloc : l = loc
  · rw [hloc, h.at?_write, h'.at?_write, hsame]
  · rw [h.map_write_of_ne look b hloc, h'.map_write_of_ne look b hloc, hl]

theorem Takes.current_write (h : t.Takes loc) (b : Bytes) :
    (t.write loc b).current = t.current :=
  (h.written b).current.symm

/-! ### Trees that differ in contents -/

theorem SameBut.written (h : SameBut S t t') : Written S t t' := by
  refine ⟨h.similar.current, fun loc hloc => ?_, fun loc _ => .inl (h.similar.at? loc)⟩
  have hshape := h.similar.at? loc
  have hcontent := h.content loc hloc
  generalize t.at? loc = o at hshape hcontent ⊢
  generalize t'.at? loc = o' at hshape hcontent ⊢
  cases o <;> cases o' <;> simp_all [Node.face]

/-- A write to one goes where a write to the other goes, and fails alike. -/
theorem SameBut.writesTo_eq (h : SameBut S t t') (p : Path) : t'.writesTo p = t.writesTo p := by
  rw [writesTo, writesTo, ← h.similar.resolve_eq writable p]
  rcases t.resolve writable p with e | ⟨loc⟩ | ⟨dir, n⟩
  · rfl
  · have hshape := h.similar.at? loc
    dsimp only
    generalize t.at? loc = o at hshape ⊢
    generalize t'.at? loc = o' at hshape ⊢
    rcases o with - | x <;> rcases o' with - | x'
    · rfl
    · cases hshape
    · cases hshape
    · cases x <;> cases x' <;> cases hshape <;> rfl
  · rfl

theorem SameBut.write (h : SameBut S t t') (hloc : t.writesTo p = .ok loc) (b : Bytes) :
    SameBut S (t.write loc b) (t'.write loc b) := by
  have htakes : t.Takes loc := takes_of_writesTo hloc
  have htakes' : t'.Takes loc := takes_of_writesTo ((h.writesTo_eq p).trans hloc)
  have hsame := Node.taking_of_shape b (h.similar.at? loc)
  refine ⟨⟨?_, fun l => ?_⟩, fun l hl => ?_⟩
  · rw [htakes.current_write, htakes'.current_write]
    exact h.similar.current
  · exact htakes.map_write_congr Prod.fst htakes' hsame (h.similar.at? l)
  · exact htakes.map_write_congr Prod.snd htakes' hsame (h.content l hl)

/-! ### Trees with files that were written -/

/-- The path is resolved neither to nor through a file in `S`. -/
def Aside (t : FileTree) (S : Location → Prop) (p : Path) : Prop :=
  ∀ loc ∈ t.stations p, ¬ S loc

namespace Written

variable (h : Written S t t')
include h

theorem exists_error {e : FileError} (he : t.writesTo p = .error e) :
    ∃ e', t'.writesTo p = .error e' := by
  rcases hp : t'.writesTo p with e' | loc
  · exact ⟨e', rfl⟩
  · rw [h.writesTo_eq_ok_iff, he] at hp
    cases hp

theorem write (hloc : t.writesTo p = .ok loc) (b : Bytes) :
    Written S (t.write loc b) (t'.write loc b) := by
  have htakes : t.Takes loc := takes_of_writesTo hloc
  have htakes' : t'.Takes loc := takes_of_writesTo (h.writesTo_eq_ok_iff.mpr hloc)
  have hsame : Node.taking b (t.at? loc) = Node.taking b (t'.at? loc) := by
    have hl := h.lookedUp loc
    generalize t.at? loc = o at hl ⊢
    generalize t'.at? loc = o' at hl ⊢
    cases hl <;> rfl
  refine ⟨?_, fun l hl => ?_, fun l hl => ?_⟩
  · rw [htakes.current_write, htakes'.current_write]
    exact h.current
  · exact htakes.map_write_congr id htakes' hsame (h.outside l hl)
  rcases h.inside l hl with hshape | ⟨hnone, hfile⟩
  · exact .inl (htakes.map_write_congr Prod.fst htakes' hsame hshape)
  by_cases hl : l = loc
  · -- the file that was new is written, and it is in both trees
    rw [hl, htakes.at?_write, htakes'.at?_write, hsame]
    exact .inl rfl
  · have hshape := htakes.map_write_of_ne Prod.fst b hl
    have hshape' := htakes'.map_write_of_ne Prod.fst b hl
    rw [hnone, Option.map_none, Option.map_eq_none_iff] at hshape
    exact .inr ⟨hshape, hshape'.trans hfile⟩

/-- A path that comes to nothing that was written is there after as before. -/
theorem hasPath_eq (hp : t'.Aside S p) : t'.hasPath p = t.hasPath p := by
  rw [FileTree.hasPath, FileTree.hasPath, node?, node?, ← h.resolve_eq (by simp [existing]) hp]
  rcases hr : t.resolve existing p with e | ⟨loc⟩ | ⟨dir, n⟩
  · rfl
  · -- the path leads to the same location, where something was before
    obtain ⟨x, hx⟩ := at?_of_resolve hr
    have hl := h.lookedUp loc
    rw [hx] at hl
    simp only [bind, Except.bind, hx]
    generalize t'.at? loc = o' at hl ⊢
    cases hl <;> rfl
  · rfl

end Written

/-- Opening a file changes nothing, or makes the file where nothing was. -/
theorem written_openFile (h : t.openFile p = .ok (t', loc)) : Written (· = loc) t t' := by
  have hends : t.Ends (t.resolve writable p) := resolve_ends rfl p
  rw [openFile] at h
  generalize t.resolve writable p = r at hends h
  cases hends with
  | error e => cases h
  | @found found x hx hlink =>
    -- what is there is opened, or it is a directory
    simp only [bind, Except.bind, hx] at h
    cases x <;> cases h <;> exact .refl _ _
  | @vacant dir n es hdir hn =>
    cases h
    have hslot : t.entries.Slot (dir ++ [n]) := .of_parent hdir fun sub => by rw [hn]; simp
    have hnone : t.at? (dir ++ [n]) = none := by
      rw [FileTree.at?, Entries.at?_append hdir, Entries.at?_singleton, hn]
    have hwritten := (Takes.new hnone hslot).written []
    rw [FileTree.write, hnone] at hwritten
    exact hwritten

end FileTree

end WorkspaceAudit

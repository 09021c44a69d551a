/-
WorkspaceAudit/Proofs/Tree/Spelling.lean

What a found path says.

A search answers paths, and what is kept of a file is its path as it is shown.
Two things can be read off a path that was found.  Its last name is the name of
an entry, and it matches the pattern (`lastName_of_mem_files`): below the root
it is the name that was matched, and a link as the root is reached by a step
down to a name, so its path cannot end in dots or in a slash.  And if the
root and all names in the tree are text, then so is the path
(`isText_of_mem_files`), so it is shown as it is and no other such path is
shown alike (`shown_injective`).
-/
import WorkspaceAudit.Proofs.Tree.Files

namespace WorkspaceAudit

/-! ### Last names -/

namespace Path

/-- A path that does not end in a slash ends in a piece. -/
theorem exists_last_piece {p : Path} (hp : p ≠ []) (hend : p.endsInSlash = false) :
    ∃ front q, pieces p = front ++ [q] ∧ q ≠ [] := by
  induction p with
  | nil => exact absurd rfl hp
  | cons b p ih =>
    rcases p with - | ⟨b', p⟩
    · have hb : b ≠ slash := by simpa [endsInSlash] using hend
      refine ⟨[], [b], ?_, List.cons_ne_nil _ _⟩
      rw [pieces, if_neg hb]
      rfl
    · have hrest : endsInSlash (b' :: p) = false := by
        rw [endsInSlash, List.getLast?_cons_cons] at hend
        exact hend
      obtain ⟨front, q, hpieces, hq⟩ := ih (List.cons_ne_nil _ _) hrest
      rw [pieces, hpieces]
      by_cases hb : b = slash
      · rw [if_pos hb]
        exact ⟨[] :: front, q, rfl, hq⟩
      · rw [if_neg hb]
        cases front with
        | nil => exact ⟨[], b :: q, rfl, List.cons_ne_nil _ _⟩
        | cons f front => exact ⟨(b :: f) :: front, q, rfl, hq⟩

/-- A last piece that is a name is the last name. -/
theorem lastName_of_pieces {p : Path} {front : List Bytes} {n : Name}
    (h : pieces p = front ++ [n.bytes]) : p.lastName = n.bytes := by
  have hv := n.valid
  simp only [isName, Bool.and_eq_true, Bool.not_eq_true', bne_iff_ne] at hv
  obtain ⟨⟨⟨⟨⟨hempty, hdot⟩, hdotDot⟩, -⟩, -⟩, -⟩ := hv
  -- the name is kept as a step, whether or not it is the first
  have hsteps : ∃ before, p.steps = before ++ [n.bytes] := by
    rw [steps, h]
    cases front with
    | nil => exact ⟨[], by simp [hempty]⟩
    | cons f front =>
      have hkeep : [n.bytes].filter (fun r => !r.isEmpty && r != dot) = [n.bytes] := by
        simp [hempty, hdot]
      refine ⟨(if f.isEmpty then [] else [f]) ++
        front.filter (fun r => !r.isEmpty && r != dot), ?_⟩
      show (_ ++ (front ++ [n.bytes]).filter _) = _
      rw [List.filter_append, hkeep, List.append_assoc]
  obtain ⟨before, hsteps⟩ := hsteps
  rw [lastName, hsteps, List.getLast?_concat]
  simp [hdot, hdotDot]

/-- What is joined stands at the end of the pieces. -/
theorem pieces_joined (p : Path) (n : Name) (names : List Name) :
    ∃ front, pieces (p ++ joint p ++ (n.bytes ++ spelled names)) =
      front ++ (n :: names).map Name.bytes := by
  rw [← pieces_spelled]
  by_cases hp : p = []
  · subst hp
    exact ⟨[], rfl⟩
  · obtain ⟨front, -, hpieces⟩ := pieces_joint hp (n.bytes ++ spelled names)
    exact ⟨front, hpieces⟩

/-- A path that is continued along names is called by the last of them. -/
theorem lastName_along (p : Path) {names : List Name} {n : Name}
    (h : names.getLast? = some n) : (p.along names).lastName = n.bytes := by
  obtain ⟨before, rfl⟩ := List.getLast?_eq_some_iff.mp h
  have hpieces : ∃ front, pieces (p.along (before ++ [n])) =
      front ++ (before ++ [n]).map Name.bytes := by
    cases before with
    | nil =>
      rw [List.nil_append, along_cons, List.append_assoc (p ++ joint p)]
      exact pieces_joined p n []
    | cons m before =>
      rw [List.cons_append, along_cons, List.append_assoc (p ++ joint p)]
      exact pieces_joined p m (before ++ [n])
  obtain ⟨front, hpieces⟩ := hpieces
  rw [List.map_append, ← List.append_assoc] at hpieces
  exact lastName_of_pieces hpieces

end Path

theorem Name.bytes_of_ofBytes? {b : Bytes} {n : Name} (h : Name.ofBytes? b = some n) :
    n.bytes = b := by
  unfold Name.ofBytes? at h
  split at h
  · cases h
    rfl
  · cases h

theorem Step.ofPiece?_eq_down {b : Bytes} {n : Name} (h : Step.ofPiece? b = some (.down n)) :
    n.bytes = b := by
  unfold Step.ofPiece? at h
  split at h
  · cases h
  split at h
  · cases h
  split at h
  · cases h
  split at h
  · next m hm =>
    cases h
    exact Name.bytes_of_ofBytes? hm
  · cases h

/-- Every piece that is not empty takes a step. -/
theorem Step.exists_ofPiece? {b : Bytes} (h : b ≠ []) : ∃ step, Step.ofPiece? b = some step := by
  have hempty : ¬ b.isEmpty = true := by simpa using h
  unfold Step.ofPiece?
  rw [if_neg hempty]
  split
  · exact ⟨.stay, rfl⟩
  split
  · exact ⟨.up, rfl⟩
  split
  · exact ⟨_, rfl⟩
  · exact ⟨.tooLong, rfl⟩

namespace FileTree

variable {t : FileTree} {root : Path} {g : Glob}

/-- A link is called by the name that it stands under. -/
theorem lastName_of_isLink (h : t.isLink root = true) : ∃ n : Name, root.lastName = n.bytes := by
  have hne : root ≠ [] := by
    rintro rfl
    cases h
  have hend : root.endsInSlash = false := by
    apply Bool.eq_false_iff.mpr
    intro hslash
    rw [isLink_of_endsInSlash hslash] at h
    cases h
  obtain ⟨front, q, hpieces, hq⟩ := Path.exists_last_piece hne hend
  obtain ⟨step, hstep⟩ := Step.exists_ofPiece? hq
  have hlast : root.walk.getLast? = some step := by
    rw [Path.walk, hend, if_neg (by simp), List.append_nil, hpieces, List.filterMap_append]
    simp [hstep]
  -- any other step than one down to a name leads to a directory
  by_cases hdown : ∃ n, step = .down n
  · obtain ⟨n, rfl⟩ := hdown
    have hbytes : n.bytes = q := Step.ofPiece?_eq_down hstep
    rw [← hbytes] at hpieces
    exact ⟨n, Path.lastName_of_pieces hpieces⟩
  · have hother : ∀ n, step ≠ .down n := fun n hn => hdown ⟨n, hn⟩
    rw [isLink_of_getLast? hlast hother] at h
    cases h

/-- **The last name of a found path** is the name of an entry, and matches. -/
theorem lastName_of_mem_files {p : Path} (h : p ∈ t.files root g) :
    ∃ n : Name, p.lastName = n.bytes ∧ g.matchesName n.bytes.shown = true := by
  rw [files_eq] at h
  rcases List.mem_append.mp h with hroot | hbelow
  · rw [foundRoot] at hroot
    split at hroot
    · next hfound =>
      obtain rfl := List.mem_singleton.mp hroot
      simp only [Bool.and_eq_true] at hfound
      obtain ⟨⟨-, hlink⟩, hmatch⟩ := hfound
      obtain ⟨n, hn⟩ := lastName_of_isLink hlink
      rw [hn] at hmatch
      exact ⟨n, hn, hmatch⟩
    · cases hroot
  · obtain ⟨names, hnames, rfl⟩ := List.mem_map.mp hbelow
    obtain ⟨⟨_, x⟩, hw, rfl⟩ := List.mem_map.mp hnames
    obtain ⟨-, hmatch⟩ := List.mem_filter.mp hw
    simp only [Bool.and_eq_true] at hmatch
    obtain ⟨n, hlast, hn⟩ := Glob.matchesLast_iff.mp hmatch.2
    exact ⟨n, Path.lastName_along root hlast, hn⟩

end FileTree

/-! ### Paths that are text -/

namespace Bytes

/-- The bytes encode a text. -/
def IsText (b : Bytes) : Prop :=
  ∃ s, b = ofText s

theorem ofText_append (s s' : String) : ofText (s ++ s') = ofText s ++ ofText s' := by
  simp [ofText, ByteArray.data_append]

theorem IsText.append {b b' : Bytes} (h : b.IsText) (h' : b'.IsText) : IsText (b ++ b') := by
  obtain ⟨s, rfl⟩ := h
  obtain ⟨s', rfl⟩ := h'
  exact ⟨s ++ s', (ofText_append s s').symm⟩

theorem IsText.ofText_shown {b : Bytes} (h : b.IsText) : ofText b.shown = b := by
  obtain ⟨s, rfl⟩ := h
  rw [shown_ofText]

/-- Texts that are shown alike are the same. -/
theorem shown_injective {b b' : Bytes} (h : b.IsText) (h' : b'.IsText)
    (heq : b.shown = b'.shown) : b = b' := by
  rw [← h.ofText_shown, heq, h'.ofText_shown]

end Bytes

namespace Path

theorem isText_join {p q : Path} (hp : p.IsText) (hq : q.IsText) : (p.join q).IsText := by
  have hslash : Bytes.IsText [slash] := ⟨"/", by decide +kernel⟩
  rw [join]
  split
  · exact hq
  · split
    · exact hp.append hq
    · exact hp.append (hslash.append hq)

theorem isText_along {p : Path} (hp : p.IsText) {names : List Name}
    (h : ∀ n ∈ names, n.bytes.IsText) : (p.along names).IsText := by
  induction names generalizing p with
  | nil => exact hp
  | cons n names ih =>
    have hn : (p.join n.bytes).IsText := isText_join hp (h n List.mem_cons_self)
    exact ih hn fun m hm => h m (List.mem_cons_of_mem n hm)

end Path

namespace Entries

/-- All names that lead to something encode texts. -/
def NamesAreText (es : Entries) : Prop :=
  ∀ loc x, es.at? loc = some x → ∀ n ∈ loc, n.bytes.IsText

theorem NamesAreText.nil : NamesAreText [] := by
  intro loc x hx n hn
  cases loc with
  | nil => cases hn
  | cons m loc => cases hx

/-- One entry more, with a name that is a text and so is every name below. -/
theorem NamesAreText.cons {es : Entries} {n : Name} {x : Node} (hn : n.bytes.IsText)
    (hbelow : ∀ sub, x = .dir sub → NamesAreText sub) (hes : NamesAreText es) :
    NamesAreText ((n, x) :: es) := by
  intro loc y hy m hm
  rcases loc with - | ⟨k, loc⟩
  · cases hm
  by_cases hk : k = n
  · subst hk
    have hlookup : ((k, x) :: es).lookup k = some x := List.lookup_cons_self
    rcases List.mem_cons.mp hm with rfl | hm
    · exact hn
    cases x with
    | dir sub =>
      rw [at?_cons_dir hlookup] at hy
      exact hbelow sub rfl loc y hy m hm
    | _ =>
      -- nothing is below what is no directory
      rw [at?, hlookup] at hy
      cases loc with
      | nil => cases hm
      | cons => cases hy
  · have hlookup : ((n, x) :: es).lookup k = es.lookup k := by
      rw [lookup_cons_eq, if_neg hk]
    rw [at?_cons_congr hlookup] at hy
    exact hes (k :: loc) y hy m hm

end Entries

/-- Along the names something stands there. -/
theorem Reaches.at? {p : Path} {es : Entries} {names : List Name} {x : Node}
    (h : Reaches p es names x) : es.at? names = some x := by
  induction h with
  | entry _ hn => rw [Entries.at?_singleton, hn]
  | inside _ hn _ ih => rw [Entries.at?_cons_dir hn, ih]

namespace FileTree

variable {t : FileTree} {root : Path} {g : Glob}

/-- **A found path is text**, if the root and the names in the tree are. -/
theorem isText_of_mem_files (ht : t.entries.NamesAreText) (hroot : root.IsText) {p : Path}
    (h : p ∈ t.files root g) : p.IsText := by
  rw [files_eq] at h
  rcases List.mem_append.mp h with hfound | hbelow
  · rw [foundRoot] at hfound
    split at hfound
    · obtain rfl := List.mem_singleton.mp hfound
      exact hroot
    · cases hfound
  · obtain ⟨names, hnames, rfl⟩ := List.mem_map.mp hbelow
    cases hd : t.isDirectory root with
    | false =>
      have hnone : t.files root g = [] := files_of_not_isDirectory hd
      rw [files_eq] at hnone
      rw [List.map_eq_nil_iff.mp (List.append_eq_nil_iff.mp hnone).2] at hnames
      cases hnames
    | true =>
      obtain ⟨es, hes⟩ := isDirectory_iff.mp hd
      obtain ⟨loc, -, hat⟩ := node?_eq_ok_iff.mp hes
      obtain ⟨x, -, hreach, -⟩ := (mem_foundNames_iff hes g names).mp hnames
      -- the names go on from where the root leads
      have hthere : t.entries.at? (loc ++ names) = some x := by
        have hdir : t.entries.at? loc = some (.dir es) := hat
        rw [Entries.at?_append hdir, hreach.at?]
      apply Path.isText_along hroot
      intro n hn
      exact ht _ x hthere n (List.mem_append_right loc hn)

end FileTree

end WorkspaceAudit

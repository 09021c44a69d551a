/-
WorkspaceAudit/Proofs/Tree/Additions.lean

What a search finds after files were written.

A search finds again what it found before, and beyond that at most files that
are new.  The path of a new file goes down to it from the directory that was
searched, so the file is a station of its own path (`mem_stations_along`).
Where no path that is found comes to what was written, nothing is new and the
search finds the same (`Written.files_eq`).
-/
import WorkspaceAudit.Proofs.Tree.Files
import WorkspaceAudit.Proofs.Tree.Stations

namespace WorkspaceAudit.FileTree

variable {t t' : FileTree} {S : Location → Prop} {p : Path} {es es' : Entries}
  {names : List Name} {x : Node} {loc : Location}

/-! ### Stations below a directory -/

/-- Names that are walked down from a directory lead through stations. -/
theorem mem_stationsFrom_names {onLink : Trail → Path → List Step → List Location}
    (h : Reaches p es names x) {here : Trail} (hs : here.Sound t) (hes : here.entries t = es) :
    here.location ++ names ∈ stationsFrom t onLink here (names.map .down) := by
  induction h generalizing here with
  | @entry p es n x hp hn =>
    subst hes
    rw [List.map_singleton, stationsFrom, hn]
    cases x <;> exact List.mem_cons_self
  | @inside p es sub n names x hp hn _ ih =>
    subst hes
    rw [List.map_cons, stationsFrom, hn]
    have hin := ih (.cons hs hn) rfl
    rw [Trail.location_cons, List.append_assoc] at hin
    exact List.mem_cons_of_mem _ hin

/-- Where steps lead to a directory, the stations below it are stations of the
steps that go on. -/
theorem mem_stationsFrom_append {onLink : Trail → Path → List Step → Except FileError Target}
    {stationsOnLink : Trail → Path → List Step → List Location}
    (hloc : t.at? loc = some (.dir es)) (h : Reaches p es names x)
    (hlink : ∀ {here : Trail}, here.Sound t → ∀ target steps,
      onLink here target steps = .ok (.found loc) →
        loc ++ names ∈ stationsOnLink here target (steps ++ names.map .down))
    (steps : List Step) {here : Trail} (hs : here.Sound t)
    (hwalk : walkFrom t existing onLink here steps = .ok (.found loc)) :
    loc ++ names ∈ stationsFrom t stationsOnLink here (steps ++ names.map .down) := by
  induction steps generalizing here with
  | nil =>
    cases hwalk
    have hes := hs.at?
    rw [hloc] at hes
    cases hes
    exact mem_stationsFrom_names h hs rfl
  | cons step steps ih =>
    cases step with
    | stay => exact ih hs hwalk
    | slash => exact ih hs hwalk
    | up => exact ih hs.tail hwalk
    | tooLong => cases hwalk
    | down n =>
      rw [List.cons_append, stationsFrom]
      rcases walkFrom_down_found rfl hwalk with
        ⟨target, hn, hwalk⟩ | ⟨sub, hn, hwalk⟩ | ⟨y, hn, -, hnodir, rfl⟩
      · rw [hn]
        exact List.mem_cons_of_mem _ (hlink hs target steps hwalk)
      · rw [hn]
        exact List.mem_cons_of_mem _ (ih (.cons hs hn) hwalk)
      · -- a walk that ends here does not lead to a directory
        rw [← hs.lookup, hn] at hloc
        cases hloc
        exact absurd rfl (hnodir es)

theorem mem_stationsLinks_append (hloc : t.at? loc = some (.dir es)) (h : Reaches p es names x)
    (links : Nat) (steps : List Step) {here : Trail} (hs : here.Sound t)
    (hwalk : walkLinks t existing links here steps = .ok (.found loc)) :
    loc ++ names ∈ stationsLinks t links here (steps ++ names.map .down) := by
  induction links generalizing here steps with
  | zero => exact mem_stationsFrom_append hloc h (fun _ _ _ h => by cases h) steps hs hwalk
  | succ links ih =>
    refine mem_stationsFrom_append hloc h ?_ steps hs hwalk
    intro here hs target steps hwalk
    split at hwalk
    · cases hwalk
    · next hempty =>
      rw [if_neg hempty, ← List.append_assoc]
      refine ih _ ?_ hwalk
      split
      · exact .nil
      · exact hs

/-- A slash makes no difference to the stations of the steps after it. -/
theorem stationsFrom_slash {onLink : Trail → Path → List Step → List Location}
    (hlink : ∀ here target before after,
      onLink here target (before ++ .slash :: after) = onLink here target (before ++ after))
    (before after : List Step) (here : Trail) :
    stationsFrom t onLink here (before ++ .slash :: after) =
      stationsFrom t onLink here (before ++ after) := by
  induction before generalizing here with
  | nil => rfl
  | cons step before ih =>
    cases step with
    | stay => exact ih here
    | slash => exact ih here
    | up => exact ih here.tail
    | tooLong => rfl
    | down n =>
      rw [List.cons_append, List.cons_append, stationsFrom, stationsFrom]
      simp only [ih, hlink]

theorem stationsLinks_slash (links : Nat) (before after : List Step) (here : Trail) :
    stationsLinks t links here (before ++ .slash :: after) =
      stationsLinks t links here (before ++ after) := by
  induction links generalizing before after here with
  | zero => exact stationsFrom_slash (fun _ _ _ _ => rfl) before after here
  | succ links ih =>
    refine stationsFrom_slash ?_ before after here
    intro here target before after
    split
    · rfl
    · rw [← List.append_assoc, ih, List.append_assoc]

/-- Where a path leads to a directory, what is reached in it along names is a
station of the path that is continued along the names. -/
theorem mem_stations_along {root : Path} (hroot : t.resolve existing root = .ok (.found loc))
    (hloc : t.at? loc = some (.dir es)) (h : Reaches p es names x) :
    loc ++ names ∈ t.stations (root.along names) := by
  rw [resolve] at hroot
  split at hroot
  · cases hroot
  split at hroot
  · cases hroot
  next hempty =>
  split at hroot
  · cases hroot
  have hne : root ≠ [] := by simpa using hempty
  have hstart : t.start (root.along names) = t.start root := by
    rw [start, start, Path.isAbsolute_along hne]
  rw [stations, Path.walk_along hne h.ne_nil, hstart]
  have hstation := mem_stationsLinks_append hloc h linkLimit root.walk (start_sound t root) hroot
  rw [Path.walk_eq, List.append_assoc] at hstation
  split at hstation
  · rwa [List.singleton_append, stationsLinks_slash] at hstation
  · exact hstation

/-! ### What is reached after a write -/

theorem at?_concat (hloc : t.at? loc = some (.dir es)) (n : Name) :
    t.at? (loc ++ [n]) = es.lookup n := by
  rw [FileTree.at?, Entries.at?_append hloc, Entries.at?_singleton]

namespace Written

variable (h : Written S t t')
include h

theorem lookup_entries (hloc : t.at? loc = some (.dir es)) (hloc' : t'.at? loc = some (.dir es'))
    (n : Name) : LookedUp S (loc ++ [n]) (es.lookup n) (es'.lookup n) := by
  have hl := h.lookedUp (loc ++ [n])
  rwa [at?_concat hloc, at?_concat hloc'] at hl

/-- What was reached is reached again. -/
theorem reaches (hloc : t.at? loc = some (.dir es)) (hloc' : t'.at? loc = some (.dir es'))
    (hr : Reaches p es names x) : ∃ x', Reaches p es' names x' ∧ x'.shape = x.shape := by
  induction hr generalizing loc es' with
  | @entry p es n x hp hn =>
    have hl := h.lookup_entries hloc hloc' n
    rw [hn] at hl
    generalize hn' : es'.lookup n = y at hl
    cases hl with
    | _ => exact ⟨_, .entry hp hn', rfl⟩
  | @inside p es sub n names x hp hn _ ih =>
    have hl := h.lookup_entries hloc hloc' n
    rw [hn] at hl
    generalize hn' : es'.lookup n = y at hl
    cases hl with
    | dir =>
      obtain ⟨x', hr', hx'⟩ := ih ((at?_concat hloc n).trans hn) ((at?_concat hloc' n).trans hn')
      exact ⟨x', .inside hp hn' hr', hx'⟩

/-- What is reached now was reached before, or it is new. -/
theorem reached (hloc : t.at? loc = some (.dir es)) (hloc' : t'.at? loc = some (.dir es'))
    (hr : Reaches p es' names x) :
    S (loc ++ names) ∨ ∃ y, Reaches p es names y ∧ y.shape = x.shape := by
  induction hr generalizing loc es with
  | @entry p es' n x hp hn' =>
    have hl := h.lookup_entries hloc hloc' n
    rw [hn'] at hl
    generalize hn : es.lookup n = y at hl
    cases hl with
    | new hS => exact .inl hS
    | _ => exact .inr ⟨_, .entry hp hn, rfl⟩
  | @inside p es' sub' n names x hp hn' _ ih =>
    have hl := h.lookup_entries hloc hloc' n
    rw [hn'] at hl
    generalize hn : es.lookup n = y at hl
    cases hl with
    | dir =>
      rcases ih ((at?_concat hloc n).trans hn) ((at?_concat hloc' n).trans hn') with
        hS | ⟨y, hr, hy⟩
      · rw [List.append_assoc] at hS
        exact .inl hS
      · exact .inr ⟨y, .inside hp hn hr, hy⟩

/-- A search that comes to nothing that was written finds the same names. -/
theorem mem_foundNames_iff {root : Path} {g : Glob}
    (hp : ∀ p ∈ t'.files root g, ∀ loc ∈ t'.stations p, ¬ S loc) (names : List Name) :
    names ∈ t'.foundNames root g ↔ names ∈ t.foundNames root g := by
  have hdir := h.isDirectory_eq root
  cases hd : t.isDirectory root with
  | false =>
    rw [foundNames, foundNames, walkAt_of_not_isDirectory hd,
      walkAt_of_not_isDirectory (hdir.trans hd)]
  | true =>
    obtain ⟨es, hes⟩ := isDirectory_iff.mp hd
    obtain ⟨es', hes'⟩ := isDirectory_iff.mp (hdir.trans hd)
    obtain ⟨loc, hroot, hloc⟩ := node?_eq_ok_iff.mp hes
    obtain ⟨loc', hroot', hloc'⟩ := node?_eq_ok_iff.mp hes'
    -- the root leads to the same location in both trees
    have hsame := h.resolve_found (by simp [existing]) hroot
    rw [hroot'] at hsame
    cases hsame
    constructor
    · intro hfound
      obtain ⟨x, n, hr, hx, hlast, hn⟩ := (FileTree.mem_foundNames_iff hes' g names).mp hfound
      have hfile : root.along names ∈ t'.files root g := by
        rw [FileTree.files_eq]
        exact List.mem_append_right _ (List.mem_map_of_mem hfound)
      have hout := hp _ hfile _ (mem_stations_along hroot' hloc' hr)
      obtain ⟨y, hr', hy⟩ := (h.reached hloc hloc' hr).resolve_left hout
      refine (FileTree.mem_foundNames_iff hes g names).mpr ⟨y, n, hr', ?_, hlast, hn⟩
      rw [← y.isDir_shape, hy, x.isDir_shape, hx]
    · intro hfound
      obtain ⟨x, n, hr, hx, hlast, hn⟩ := (FileTree.mem_foundNames_iff hes g names).mp hfound
      obtain ⟨x', hr', hx'⟩ := h.reaches hloc hloc' hr
      refine (FileTree.mem_foundNames_iff hes' g names).mpr ⟨x', n, hr', ?_, hlast, hn⟩
      rw [← x'.isDir_shape, hx', x.isDir_shape, hx]

/-- **A search that comes to nothing that was written finds the same files**, in
the same order. -/
theorem files_eq {root : Path} {g : Glob}
    (hp : ∀ p ∈ t'.files root g, ∀ loc ∈ t'.stations p, ¬ S loc) :
    t'.files root g = t.files root g := by
  have hroot : t'.foundRoot root g = t.foundRoot root g := by
    rw [foundRoot, foundRoot, h.isDirectory_eq, h.isLink_eq]
  have hnames : t'.foundNames root g = t.foundNames root g :=
    (t'.foundNames_ordered root g).eq_of_mem_iff (t.foundNames_ordered root g)
      fun {names} => h.mem_foundNames_iff hp names
  rw [FileTree.files_eq, FileTree.files_eq, hroot, hnames]

end Written

end WorkspaceAudit.FileTree

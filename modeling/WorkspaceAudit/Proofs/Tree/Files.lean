/-
WorkspaceAudit/Proofs/Tree/Files.lean

The files that a search finds, and in which order.

`Sought` says of names below a directory that a file is reached along them
and that the last of them matches.  The names that a search finds are exactly
these (`mem_foundNames_iff`) in strictly increasing order
(`foundNames_ordered`).  A list that is strictly ordered is determined by its
members, so what a walk sees does not depend on the order in which directories
list their entries, nor on what the files hold (`Similar.seen_eq`).

The headline says it of the search itself.  There is one limit: a directory
whose path is longer than the system takes is not entered, and the last
section has a tree in which that hides a file.
-/
import Mathlib.Data.List.Sort
import WorkspaceAudit.Proofs.Session
import WorkspaceAudit.Proofs.Tree.Along
import WorkspaceAudit.Proofs.Tree.Landing
import WorkspaceAudit.Scan

namespace WorkspaceAudit

/-! ### What is reached in similar directories -/

/-- In similar directories nodes of the same shape are reached. -/
theorem Reaches.similar {p : Path} {es es' : Entries} {names : List Name} {x : Node}
    (h : Reaches p es names x) (hes : es.Similar es') :
    ∃ x', Reaches p es' names x' ∧ x'.shape = x.shape := by
  induction h generalizing es' with
  | @entry p es n x hp hn =>
    have hl := hes.lookup n
    rw [hn] at hl
    obtain ⟨x', hn', hx'⟩ := Option.map_eq_some_iff.mp hl.symm
    exact ⟨x', .entry hp hn', hx'⟩
  | @inside p es sub n names x hp hn _ ih =>
    have hu := hes.under n
    rw [hn] at hu
    generalize hn' : es'.lookup n = y at hu
    cases hu with
    | dir hsub =>
      obtain ⟨x', hr, hx'⟩ := ih hsub
      exact ⟨x', .inside hp hn' hr, hx'⟩

/-- Whether a shape is that of a directory. -/
def Shape.isDir : Shape → Bool
  | .dir => true
  | _ => false

theorem Node.isDir_shape (x : Node) : x.shape.isDir = x.isDir := by
  cases x <;> rfl

/-- Along these names below a directory stands a file, or a link whatever it
leads to, and the last name matches. -/
def Sought (root : Path) (es : Entries) (g : Glob) (names : List Name) : Prop :=
  ∃ x n, Reaches root es names x ∧ x.isDir = false ∧ names.getLast? = some n ∧
    g.matchesName n.bytes.shown = true

theorem Sought.ne_nil {root : Path} {es : Entries} {g : Glob} {names : List Name}
    (h : Sought root es g names) : names ≠ [] := by
  obtain ⟨x, n, hr, -⟩ := h
  exact hr.ne_nil

theorem Glob.matchesLast_iff {g : Glob} {names : List Name} :
    g.matchesLast names = true ↔
      ∃ n, names.getLast? = some n ∧ g.matchesName n.bytes.shown = true := by
  rw [matchesLast]
  rcases names.getLast? with - | n <;> simp

namespace FileTree

/-! ### The names that are found -/

/-- The names that lead from the root to each file that is found below. -/
def foundNames (t : FileTree) (root : Path) (g : Glob) : List (List Name) :=
  ((t.walkAt root).filter fun (names, x) => !x.isDir && g.matchesLast names).map Prod.fst

/-- The root itself, where it is a link with a name that matches. -/
def foundRoot (t : FileTree) (root : Path) (g : Glob) : List Path :=
  if t.isDirectory root && t.isLink root && g.matchesName root.lastName.shown then [root] else []

theorem files_eq (t : FileTree) (root : Path) (g : Glob) :
    t.files root g = t.foundRoot root g ++ (t.foundNames root g).map root.along := by
  rw [files, foundRoot, foundNames, List.map_map]
  rfl

theorem isDirectory_iff {t : FileTree} {root : Path} :
    t.isDirectory root = true ↔ ∃ es, t.node? existing root = .ok (.dir es) := by
  rw [isDirectory]
  rcases t.node? existing root with e | x
  · simp
  · cases x <;> simp

theorem walkAt_eq {t : FileTree} {root : Path} {es : Entries}
    (h : t.node? existing root = .ok (.dir es)) : t.walkAt root = (Node.dir es).walk root := by
  rw [walkAt, h]

theorem walkAt_of_not_isDirectory {t : FileTree} {root : Path}
    (h : t.isDirectory root = false) : t.walkAt root = [] := by
  unfold walkAt
  split
  · next es he =>
    rw [isDirectory_iff.mpr ⟨es, he⟩] at h
    cases h
  · rfl

theorem files_of_not_isDirectory {t : FileTree} {root : Path} {g : Glob}
    (h : t.isDirectory root = false) : t.files root g = [] := by
  rw [files, h, walkAt_of_not_isDirectory h]
  rfl

theorem mem_foundNames_iff {t : FileTree} {root : Path} {es : Entries}
    (h : t.node? existing root = .ok (.dir es)) (g : Glob) (names : List Name) :
    names ∈ t.foundNames root g ↔ Sought root es g names := by
  rw [foundNames, walkAt_eq h]
  simp only [List.mem_map, List.mem_filter, Prod.exists, Bool.and_eq_true, Bool.not_eq_true',
    Glob.matchesLast_iff]
  constructor
  · rintro ⟨names', x, ⟨hw, hx, n, hlast, hn⟩, rfl⟩
    rcases mem_walk_dir_iff.mp hw with ⟨rfl, -⟩ | hr
    · cases hlast
    · exact ⟨x, n, hr, hx, hlast, hn⟩
  · rintro ⟨x, n, hr, hx, hlast, hn⟩
    exact ⟨names, x, ⟨mem_walk_dir_iff.mpr (.inr hr), hx, n, hlast, hn⟩, rfl⟩

theorem walkAt_ordered (t : FileTree) (root : Path) :
    (t.walkAt root).Pairwise fun a b => Before a.1 b.1 := by
  unfold walkAt
  split
  · exact walk_ordered root _
  · exact List.Pairwise.nil

theorem foundNames_ordered (t : FileTree) (root : Path) (g : Glob) :
    (t.foundNames root g).Pairwise Before := by
  rw [foundNames, List.pairwise_map]
  exact (t.walkAt_ordered root).filter _

/-! ### Each file once -/

theorem foundNames_nodup (t : FileTree) (root : Path) (g : Glob) :
    (t.foundNames root g).Nodup :=
  (t.foundNames_ordered root g).imp <| by
    rintro as _ h rfl
    exact Before.irrefl as h

theorem ne_nil_of_mem_foundNames {t : FileTree} {root : Path} {g : Glob}
    {names : List Name} (h : names ∈ t.foundNames root g) : names ≠ [] := by
  cases hd : t.isDirectory root with
  | true =>
    obtain ⟨es, hes⟩ := isDirectory_iff.mp hd
    exact ((mem_foundNames_iff hes g names).mp h).ne_nil
  | false =>
    have hfiles := files_of_not_isDirectory (g := g) hd
    rw [files_eq] at hfiles
    rw [List.map_eq_nil_iff.mp (List.append_eq_nil_iff.mp hfiles).2] at h
    cases h

/-- No file is found twice. -/
theorem files_nodup (t : FileTree) (root : Path) (g : Glob) : (t.files root g).Nodup := by
  rw [files_eq, List.nodup_append]
  refine ⟨?_, ?_, ?_⟩
  · rw [foundRoot]
    split
    · exact List.pairwise_singleton _ _
    · exact List.Pairwise.nil
  · rw [List.Nodup, List.pairwise_map]
    apply (t.foundNames_nodup root g).imp_of_mem
    intro as bs has hbs hne heq
    exact hne (Path.along_injective (ne_nil_of_mem_foundNames has)
      (ne_nil_of_mem_foundNames hbs) heq)
  · -- the root itself is no path below the root
    intro p hp q hq
    obtain ⟨names, hnames, rfl⟩ := List.mem_map.mp hq
    rw [foundRoot] at hp
    split at hp
    · rw [List.mem_singleton.mp hp]
      exact (Path.along_ne (ne_nil_of_mem_foundNames hnames)).symm
    · cases hp

/-! ### Neither listing order nor content matters -/

/-- What a walk sees: the names, and the shape of what they lead to. -/
def seen (t : FileTree) (root : Path) : List (List Name × Shape) :=
  (t.walkAt root).map fun (names, x) => (names, x.shape)

theorem foundNames_eq (t : FileTree) (root : Path) (g : Glob) :
    t.foundNames root g =
      ((t.seen root).filter fun (names, x) => !x.isDir && g.matchesLast names).map Prod.fst := by
  rw [foundNames, seen, List.filter_map, List.map_map]
  refine congrArg (List.map Prod.fst) (List.filter_congr ?_)
  rintro ⟨names, x⟩ -
  show (!x.isDir && g.matchesLast names) = (!x.shape.isDir && g.matchesLast names)
  rw [x.isDir_shape]

theorem unopened_eq (t : FileTree) (root : Path) :
    t.unopened root =
      ((t.seen root).filter fun (names, x) =>
        x.isDir && pathLimit < (root.along names).length).map fun (names, _) =>
          root.along names := by
  rw [unopened, seen, List.filter_map, List.map_map]
  refine congrArg (List.map _) (List.filter_congr ?_)
  rintro ⟨names, x⟩ -
  show (x.isDir && decide _) = (x.shape.isDir && decide _)
  rw [x.isDir_shape]

/-- The order of the walk, on what it sees. -/
def SeenBefore (a b : List Name × Shape) : Prop :=
  Before a.1 b.1

instance : Std.Irrefl SeenBefore := ⟨fun a => Before.irrefl a.1⟩

instance : Std.Antisymm SeenBefore :=
  ⟨fun _ _ h h' => absurd (h.trans h') (Before.irrefl _)⟩

theorem seen_ordered (t : FileTree) (root : Path) : (t.seen root).Pairwise SeenBefore := by
  rw [seen, List.pairwise_map]
  exact t.walkAt_ordered root

theorem isDirectory_eq_shape (t : FileTree) (p : Path) :
    t.isDirectory p = match (t.node? existing p).map Node.shape with
      | .ok .dir => true
      | _ => false := by
  rw [isDirectory]
  rcases t.node? existing p with e | x
  · rfl
  · cases x <;> rfl

theorem isLink_eq_shape (t : FileTree) (p : Path) :
    t.isLink p = match (t.node? entry p).map Node.shape with
      | .ok (.link _) => true
      | _ => false := by
  rw [isLink]
  rcases t.node? entry p with e | x
  · rfl
  · cases x <;> rfl

section Similar

variable {t t' : FileTree} (ht : t.Similar t')
include ht

theorem Similar.hasPath_eq (p : Path) : t.hasPath p = t'.hasPath p := by
  have hshape := ht.node?_eq existing p
  rw [hasPath, hasPath]
  generalize t.node? existing p = r at hshape ⊢
  generalize t'.node? existing p = r' at hshape ⊢
  rcases r with e | x <;> rcases r' with e' | x'
  · rfl
  · cases hshape
  · cases hshape
  · rfl

theorem Similar.isDirectory_eq (p : Path) : t.isDirectory p = t'.isDirectory p := by
  rw [isDirectory_eq_shape, isDirectory_eq_shape, ht.node?_eq existing p]

theorem Similar.isLink_eq (p : Path) : t.isLink p = t'.isLink p := by
  rw [isLink_eq_shape, isLink_eq_shape, ht.node?_eq entry p]

/-- A path leads to similar directories in similar trees. -/
theorem Similar.entries_of_node? {p : Path} {es es' : Entries}
    (h : t.node? existing p = .ok (.dir es)) (h' : t'.node? existing p = .ok (.dir es')) :
    es.Similar es' := by
  obtain ⟨loc, hloc, hes⟩ := node?_eq_ok_iff.mp h
  obtain ⟨loc', hloc', hes'⟩ := node?_eq_ok_iff.mp h'
  rw [← ht.resolve_eq existing p, hloc] at hloc'
  cases hloc'
  intro below
  have hbelow := ht.at? (loc ++ below)
  unfold FileTree.at? at hbelow hes hes'
  rwa [Entries.at?_append hes, Entries.at?_append hes'] at hbelow

theorem Similar.seen_subset {root : Path} {e : List Name × Shape} (h : e ∈ t.seen root) :
    e ∈ t'.seen root := by
  obtain ⟨⟨names, x⟩, hw, rfl⟩ := List.mem_map.mp h
  cases hd : t.isDirectory root with
  | false =>
    rw [walkAt_of_not_isDirectory hd] at hw
    cases hw
  | true =>
    obtain ⟨es, hes⟩ := isDirectory_iff.mp hd
    obtain ⟨es', hes'⟩ := isDirectory_iff.mp ((ht.isDirectory_eq root).symm.trans hd)
    have hsim := ht.entries_of_node? hes hes'
    rw [walkAt_eq hes] at hw
    -- the root on both sides, or nodes of the same shape along the same names
    rcases mem_walk_dir_iff.mp hw with ⟨rfl, rfl⟩ | hr
    · refine List.mem_map.mpr ⟨([], .dir es'), ?_, rfl⟩
      rw [walkAt_eq hes']
      exact mem_walk_dir_iff.mpr (.inl ⟨rfl, rfl⟩)
    · obtain ⟨x', hr', hx'⟩ := hr.similar hsim
      refine List.mem_map.mpr ⟨(names, x'), ?_, congrArg (Prod.mk names) hx'⟩
      rw [walkAt_eq hes']
      exact mem_walk_dir_iff.mpr (.inr hr')

/-- **In similar trees a walk sees the same, in the same order.** -/
theorem Similar.seen_eq (root : Path) : t.seen root = t'.seen root := by
  -- both lists are strictly ordered, so their members decide
  apply (t.seen_ordered root).eq_of_mem_iff (t'.seen_ordered root)
  exact fun e => ⟨ht.seen_subset, ht.symm.seen_subset⟩

/-- In similar trees the same files are found. -/
theorem Similar.files_eq (root : Path) (g : Glob) : t.files root g = t'.files root g := by
  have hroot : t.foundRoot root g = t'.foundRoot root g := by
    rw [foundRoot, foundRoot, ht.isDirectory_eq root, ht.isLink_eq root]
  rw [FileTree.files_eq, FileTree.files_eq, foundNames_eq, foundNames_eq, hroot,
    ht.seen_eq root]

/-- In similar trees the same directories are not entered. -/
theorem Similar.unopened_eq (root : Path) : t.unopened root = t'.unopened root := by
  rw [FileTree.unopened_eq, FileTree.unopened_eq, ht.seen_eq root]

end Similar

end FileTree

/-! ### The search -/

namespace Scan

open FileTree

/-- A search answers what the files say when it starts, whatever it logs. -/
theorem find_answer (root : Path) (g : Glob) (s : Session) :
    ((find root g).run s).1 = s.tree.files root g := by
  rw [find, Run.run_bind, Run.run_ask]
  cases hd : s.tree.isDirectory root with
  | true => rfl
  | false =>
    rw [files_of_not_isDirectory hd]
    rfl

/-- **What a search finds, and in which order.**  Where no directory is, it
finds nothing.  Otherwise it finds the root continued along each list of
names that is sought below, once each and in strictly increasing order of the
names; before all of them stands the root itself, if it is a link and its own
name matches.  The order in which directories list their entries makes no
difference. -/
theorem find_sought_in_order (s : Session) (root : Path) (g : Glob) :
    ((∀ es, s.tree.node? existing root ≠ .ok (.dir es)) → ((find root g).run s).1 = []) ∧
    (∀ es, s.tree.node? existing root = .ok (.dir es) →
      ∃ found : List (List Name),
        ((find root g).run s).1 =
          (if s.tree.isLink root && g.matchesName root.lastName.shown then [root] else []) ++
            found.map root.along ∧
        found.Pairwise Before ∧
        ∀ names, names ∈ found ↔ Sought root es g names) ∧
    ((find root g).run s).1.Nodup ∧
    (root.endsInSlash = true → s.tree.isLink root = false) ∧
    ∀ s' : Session, s.tree.current = s'.tree.current →
      s.tree.entries.Relisted s'.tree.entries →
      ((find root g).run s').1 = ((find root g).run s).1 := by
  rw [find_answer]
  refine ⟨?_, ?_, files_nodup s.tree root g, isLink_of_endsInSlash, ?_⟩
  · intro h
    refine files_of_not_isDirectory (Bool.eq_false_iff.mpr ?_)
    intro hd
    obtain ⟨es, hes⟩ := isDirectory_iff.mp hd
    exact h es hes
  · intro es hes
    refine ⟨s.tree.foundNames root g, ?_, s.tree.foundNames_ordered root g,
      mem_foundNames_iff hes g⟩
    have hd := isDirectory_iff.mpr ⟨es, hes⟩
    rw [FileTree.files_eq, foundRoot, hd, Bool.true_and]
  · intro s' hcurrent hlisted
    have hs : s.tree.Similar s'.tree := ⟨hcurrent, hlisted.similar⟩
    rw [find_answer, hs.files_eq]

/-! ### A link as the root -/

/-- A directory `d` with a file in a directory `a`, a file `a-b.rs`, a link to
nothing and a link back to `d`. -/
def linkedEntries : Entries :=
  [(⟨Bytes.ofText "gone.rs", by decide⟩, .link (Bytes.ofText "nothing")),
   (⟨Bytes.ofText "a-b.rs", by decide⟩, .file []),
   (⟨Bytes.ofText "back", by decide⟩, .link (Bytes.ofText "../d")),
   (⟨Bytes.ofText "a", by decide⟩, .dir [(⟨Bytes.ofText "x.rs", by decide⟩, .file [])])]

/-- A tree with these entries in `d` and a link `ws` to it. -/
def linkedTree (es : Entries) : FileTree :=
  ⟨[(⟨Bytes.ofText "d", by decide⟩, .dir es),
    (⟨Bytes.ofText "ws", by decide⟩, .link (Bytes.ofText "d"))], []⟩

/-- The link is found first, then `a/x.rs` before `a-b.rs`, whichever way the
entries are listed. -/
theorem find_from_link :
    (linkedTree linkedEntries).node? existing (Bytes.ofText "ws") = .ok (.dir linkedEntries) ∧
    (∃ found : List (List Name),
      ((find (Bytes.ofText "ws") ⟨"*s"⟩).run (.on (linkedTree linkedEntries))).1 =
        [Bytes.ofText "ws"] ++ found.map (Path.along (Bytes.ofText "ws")) ∧
      found.Pairwise Before ∧
      ∀ names, names ∈ found ↔ Sought (Bytes.ofText "ws") linkedEntries ⟨"*s"⟩ names) ∧
    ((find (Bytes.ofText "ws") ⟨"*s"⟩).run (.on (linkedTree linkedEntries.reverse))).1 =
      ["ws", "ws/a/x.rs", "ws/a-b.rs", "ws/gone.rs"].map Bytes.ofText := by
  have hdir : (linkedTree linkedEntries).node? existing (Bytes.ofText "ws") =
      .ok (.dir linkedEntries) := rfl
  have hlisted : (linkedTree linkedEntries).entries.Relisted
      (linkedTree linkedEntries.reverse).entries :=
    .inside (.perm (List.reverse_perm _).symm (by decide))
  obtain ⟨-, hfound, -, -, horder⟩ :=
    find_sought_in_order (.on (linkedTree linkedEntries)) (Bytes.ofText "ws") ⟨"*s"⟩
  refine ⟨hdir, hfound linkedEntries hdir, ?_⟩
  rw [horder (.on (linkedTree linkedEntries.reverse)) rfl hlisted, find_answer]
  decide +kernel

/-! ### A directory that is too deep -/

/-- Directories of one name, each in the one before, with these entries in the
last. -/
def nested (n : Name) (es : Entries) : Nat → Entries
  | 0 => es
  | depth + 1 => [(n, .dir (nested n es depth))]

theorem at?_nested (n : Name) (es : Entries) (depth : Nat) (loc : Location) :
    (nested n es depth).at? (List.replicate depth n ++ loc) = es.at? loc := by
  induction depth with
  | zero => rfl
  | succ depth ih =>
    rw [nested, List.replicate_succ, List.cons_append, Entries.at?_cons_dir List.lookup_cons_self,
      ih]

/-- The longest name. -/
def longName : Name :=
  ⟨List.replicate nameLimit 0x61, by decide +kernel⟩

/-- A file `f.rs` below eighteen directories with the longest name. -/
def deepTree : FileTree :=
  ⟨nested longName [(⟨Bytes.ofText "f.rs", by decide⟩, .file [])] 18, []⟩

/-- The names that lead to the file. -/
def deepNames : List Name :=
  List.replicate 18 longName ++ [⟨Bytes.ofText "f.rs", by decide⟩]

/-- Directories alone lead to a file whose name matches, and yet a search does
not find it: the path of the sixteenth is too long to be opened. -/
theorem deep_file_not_found :
    deepTree.isDirectory Path.dot = true ∧ deepTree.at? deepNames = some (.file []) ∧
      Glob.matchesLast ⟨"*.rs"⟩ deepNames = true ∧
      Path.along Path.dot deepNames ∉ ((find Path.dot ⟨"*.rs"⟩).run (.on deepTree)).1 := by
  refine ⟨rfl, ?_, by decide +kernel, ?_⟩
  · exact at?_nested longName _ 18 _
  · have hnone : deepTree.files Path.dot ⟨"*.rs"⟩ = [] := by decide +kernel
    rw [find_answer]
    show _ ∉ deepTree.files Path.dot ⟨"*.rs"⟩
    rw [hnone]
    exact List.not_mem_nil

end Scan

end WorkspaceAudit

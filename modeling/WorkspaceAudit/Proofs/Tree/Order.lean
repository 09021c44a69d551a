/-
WorkspaceAudit/Proofs/Tree/Order.lean

A walk comes to the right nodes, in one order.

`Reaches p es names x` says, rule by rule, that one comes from the directory
at the path `p`, with the entries `es`, along `names` to the node `x`, through
directories alone and only through those whose path can be opened.  Neither
the order of the entries nor a second entry of the same name plays a part in
it.

Main results: a walk comes exactly to what is reached (`mem_walk_dir_iff`),
and it does so in strictly increasing order of the names, compared one after
the other and not as one joined path (`walk_ordered`).  The order is strict,
so nothing is visited twice.
-/
import WorkspaceAudit.Proofs.Tree.Shape
import WorkspaceAudit.Tree.Walk

namespace WorkspaceAudit

/-! ### The order of names -/

/-- Names compared one after the other, each by its bytes. -/
def Before (as bs : List Name) : Prop :=
  as.map Name.bytes < bs.map Name.bytes

theorem Name.bytes_injective {n m : Name} (h : n.bytes = m.bytes) : n = m := by
  cases n
  cases m
  cases h
  rfl

theorem Before.irrefl (as : List Name) : ¬ Before as as :=
  List.lt_irrefl _

theorem Before.trans {as bs cs : List Name} (h : Before as bs) (h' : Before bs cs) :
    Before as cs :=
  List.lt_trans h h'

instance : Std.Irrefl Before := ⟨Before.irrefl⟩

instance : Std.Antisymm Before :=
  ⟨fun _ _ h h' => absurd (h.trans h') (Before.irrefl _)⟩

theorem before_nil_cons (n : Name) (as : List Name) : Before [] (n :: as) :=
  List.nil_lt_cons _ _

theorem before_cons_cons {n m : Name} {as bs : List Name} :
    Before (n :: as) (m :: bs) ↔ n.bytes < m.bytes ∨ n = m ∧ Before as bs := by
  rw [Before, Before, List.map_cons, List.map_cons, List.cons_lt_cons_iff]
  constructor
  · rintro (h | ⟨h, h'⟩)
    · exact .inl h
    · exact .inr ⟨Name.bytes_injective h, h'⟩
  · rintro (h | ⟨rfl, h'⟩)
    · exact .inl h
    · exact .inr ⟨rfl, h'⟩

/-! ### Entries in the order of their names -/

section ByName

variable {α : Type}

/-- Entries in strictly increasing order of their names. -/
def OrderedByName (es : List (Name × α)) : Prop :=
  es.Pairwise fun a b => a.1.bytes < b.1.bytes

theorem mem_insertByName {n : Name} {a : α} {es : List (Name × α)} {e : Name × α}
    (h : e ∈ insertByName n a es) : e = (n, a) ∨ e ∈ es := by
  fun_induction insertByName n a es with
  | case1 => exact .inl (List.mem_singleton.mp h)
  | case2 m b es hlt => exact List.mem_cons.mp h
  | case3 b es hlt =>
    rcases List.mem_cons.mp h with h | h
    · exact .inl h
    · exact .inr (List.mem_cons_of_mem _ h)
  | case4 m b es hlt hne ih =>
    rcases List.mem_cons.mp h with rfl | h
    · exact .inr List.mem_cons_self
    · exact (ih h).imp_right (List.mem_cons_of_mem _)

theorem ordered_insertByName (n : Name) (a : α) {es : List (Name × α)}
    (h : OrderedByName es) : OrderedByName (insertByName n a es) := by
  fun_induction insertByName n a es with
  | case1 => exact List.pairwise_singleton _ _
  | case2 m b es hlt =>
    refine List.pairwise_cons.mpr ⟨?_, h⟩
    intro e he
    rcases List.mem_cons.mp he with rfl | he
    · exact hlt
    · exact List.lt_trans hlt ((List.pairwise_cons.mp h).1 e he)
  | case3 b es hlt => exact List.pairwise_cons.mpr (List.pairwise_cons.mp h)
  | case4 m b es hlt hne ih =>
    obtain ⟨hhead, htail⟩ := List.pairwise_cons.mp h
    refine List.pairwise_cons.mpr ⟨?_, ih htail⟩
    intro e he
    rcases mem_insertByName he with rfl | he
    · -- neither smaller nor equal
      rcases Std.lt_trichotomy n.bytes m.bytes with hlt' | heq | hgt
      · exact absurd hlt' hlt
      · exact absurd (Name.bytes_injective heq) hne
      · exact hgt
    · exact hhead e he

theorem lookup_insertByName (n m : Name) (a : α) (es : List (Name × α)) :
    (insertByName n a es).lookup m = if m = n then some a else es.lookup m := by
  fun_induction insertByName n a es with
  | case1 => exact lookup_cons_eq n m a []
  | case2 k b es hlt => exact lookup_cons_eq n m a _
  | case3 b es hlt =>
    rw [lookup_cons_eq, lookup_cons_eq]
    split <;> rfl
  | case4 k b es hlt hne ih =>
    rw [lookup_cons_eq, lookup_cons_eq, ih]
    by_cases h : m = k
    · rw [if_pos h, if_pos h, if_neg fun h' => hne (h'.symm.trans h)]
    · rw [if_neg h, if_neg h]

theorem OrderedByName.mem_iff {es : List (Name × α)} (h : OrderedByName es) {n : Name}
    {a : α} : (n, a) ∈ es ↔ es.lookup n = some a := by
  refine mem_iff_lookup (h.imp ?_)
  intro e e' hlt heq
  rw [heq] at hlt
  exact List.lt_irrefl _ hlt

end ByName

/-! ### What a walk comes to -/

/-- From the directory at a path, with these entries, names lead to a node:
through directories alone, each with a path that can be opened. -/
inductive Reaches : Path → Entries → List Name → Node → Prop
  | entry {p : Path} {es : Entries} {n : Name} {x : Node} :
      p.length ≤ FileTree.pathLimit → es.lookup n = some x → Reaches p es [n] x
  | inside {p : Path} {es sub : Entries} {n : Name} {names : List Name} {x : Node} :
      p.length ≤ FileTree.pathLimit → es.lookup n = some (.dir sub) →
      Reaches (p.join n.bytes) sub names x → Reaches p es (n :: names) x

theorem Reaches.ne_nil {p : Path} {es : Entries} {names : List Name} {x : Node}
    (h : Reaches p es names x) : names ≠ [] := by
  cases h <;> exact List.cons_ne_nil _ _

theorem ordered_entries_walk (p : Path) (es : Entries) :
    OrderedByName (Entries.walk p es) := by
  induction es with
  | nil => exact List.Pairwise.nil
  | cons e es ih =>
    obtain ⟨n, x⟩ := e
    rw [Entries.walk]
    exact ordered_insertByName n _ ih

/-- A walk goes on below a name from the node that stands under it. -/
theorem lookup_entries_walk (p : Path) (es : Entries) (n : Name) :
    (Entries.walk p es).lookup n = (es.lookup n).map fun x => x.walk (p.join n.bytes) := by
  induction es with
  | nil => rfl
  | cons e es ih =>
    obtain ⟨m, x⟩ := e
    rw [Entries.walk, lookup_insertByName, lookup_cons_eq, ih]
    by_cases h : n = m
    · subst h
      rw [if_pos rfl, if_pos rfl, Option.map_some]
    · rw [if_neg h, if_neg h]

theorem walk_eq_singleton {x : Node} (h : x.isDir = false) (p : Path) :
    x.walk p = [([], x)] := by
  cases x with
  | dir es => cases h
  | file content => rfl
  | link target => rfl
  | device d => rfl

theorem mem_walk_dir_cons {p : Path} {es : Entries} {n : Name} {names : List Name}
    {x : Node} : (n :: names, x) ∈ (Node.dir es).walk p ↔
      p.length ≤ FileTree.pathLimit ∧
        ∃ y, es.lookup n = some y ∧ (names, x) ∈ y.walk (p.join n.bytes) := by
  by_cases hp : p.length ≤ FileTree.pathLimit
  · have hmem : ∀ below, (n, below) ∈ Entries.walk p es ↔
        ∃ y, es.lookup n = some y ∧ y.walk (p.join n.bytes) = below := by
      intro below
      rw [(ordered_entries_walk p es).mem_iff, lookup_entries_walk, Option.map_eq_some_iff]
    rw [Node.walk, if_pos hp]
    simp only [List.mem_cons, Prod.mk.injEq, reduceCtorEq, false_and, false_or,
      List.mem_flatMap, List.mem_map, Prod.exists, List.cons.injEq]
    constructor
    · rintro ⟨m, below, hbelow, names', x', hx, ⟨rfl, rfl⟩, rfl⟩
      obtain ⟨y, hy, rfl⟩ := (hmem below).mp hbelow
      exact ⟨hp, y, hy, hx⟩
    · rintro ⟨-, y, hy, hx⟩
      exact ⟨n, _, (hmem _).mpr ⟨y, hy, rfl⟩, names, x, hx, ⟨rfl, rfl⟩, rfl⟩
  · rw [Node.walk, if_neg hp]
    simp [hp]

/-- **What a walk comes to**: the directory that it starts from, and what is
reached from there. -/
theorem mem_walk_dir_iff {p : Path} {es : Entries} {names : List Name} {x : Node} :
    (names, x) ∈ (Node.dir es).walk p ↔
      names = [] ∧ x = .dir es ∨ Reaches p es names x := by
  induction names generalizing p es with
  | nil =>
    rw [Node.walk]
    constructor
    · intro h
      rcases List.mem_cons.mp h with h | h
      · cases h
        exact .inl ⟨rfl, rfl⟩
      · split at h
        · -- what is below the directory is under some name
          simp at h
        · cases h
    · rintro (⟨-, rfl⟩ | h)
      · exact List.mem_cons_self
      · exact absurd rfl h.ne_nil
  | cons n names ih =>
    rw [mem_walk_dir_cons]
    constructor
    · rintro ⟨hp, y, hy, hx⟩
      right
      -- a directory can be walked on; anything else is where the names end
      by_cases hd : y.isDir
      · cases y with
        | dir sub =>
          rcases ih.mp hx with ⟨rfl, rfl⟩ | h
          · exact .entry hp hy
          · exact .inside hp hy h
        | _ => cases hd
      · rw [walk_eq_singleton (Bool.eq_false_iff.mpr hd)] at hx
        cases List.mem_singleton.mp hx
        exact .entry hp hy
    · rintro (⟨h, -⟩ | h)
      · cases h
      · cases h with
        | entry hp hy =>
          refine ⟨hp, x, hy, ?_⟩
          cases x with
          | dir sub => exact ih.mpr (.inl ⟨rfl, rfl⟩)
          | _ => exact List.mem_singleton.mpr rfl
        | inside hp hy hr => exact ⟨hp, _, hy, ih.mpr (.inr hr)⟩

/-! ### The order of a walk -/

mutual

/-- **The order of a walk**: the names that lead to what it comes to strictly
increase. -/
theorem walk_ordered (p : Path) :
    ∀ x : Node, (x.walk p).Pairwise fun a b => Before a.1 b.1
  | .dir es => by
    rw [Node.walk]
    refine List.pairwise_cons.mpr ⟨?_, ?_⟩
    · -- the directory stands before all that is in it
      intro e he
      split at he
      · simp only [List.mem_flatMap, List.mem_map] at he
        obtain ⟨e', -, v, -, rfl⟩ := he
        exact before_nil_cons _ _
      · cases he
    · split
      · refine List.pairwise_flatMap.mpr ⟨?_, ?_⟩
        · rintro ⟨n, below⟩ hn
          rw [List.pairwise_map]
          have hbelow := entries_walk_ordered p es n below hn
          exact hbelow.imp fun h => before_cons_cons.mpr (.inr ⟨rfl, h⟩)
        · -- what is under one name stands before what is under a later one
          apply (ordered_entries_walk p es).imp
          rintro ⟨n, below⟩ ⟨m, below'⟩ h a ha b hb
          obtain ⟨a', -, rfl⟩ := List.mem_map.mp ha
          obtain ⟨b', -, rfl⟩ := List.mem_map.mp hb
          exact before_cons_cons.mpr (.inl h)
      · exact List.Pairwise.nil
  | .file _ => List.pairwise_singleton _ _
  | .link _ => List.pairwise_singleton _ _
  | .device _ => List.pairwise_singleton _ _

theorem entries_walk_ordered (p : Path) :
    ∀ (es : List (Name × Node)) (n : Name) (below : List (List Name × Node)),
      (n, below) ∈ Entries.walk p es → below.Pairwise fun a b => Before a.1 b.1
  | [], _, _, h => by cases h
  | (m, x) :: es, n, below, h => by
    rw [Entries.walk] at h
    rcases mem_insertByName h with h | h
    · cases h
      exact walk_ordered _ x
    · exact entries_walk_ordered p es n below h

end

end WorkspaceAudit

/-
WorkspaceAudit/Proofs/Tree/Shape.lean

What the contents of files have no part in.

The `shape` of a node is what is seen of it from outside: that it is a file
or a directory, or where a link leads.  Two trees are `Similar` if nodes of
the same shape stand at the same locations.  The order in which directories
list their entries and the bytes in files may differ.

Main results: similar trees resolve every path alike (`Similar.resolve_eq`),
and a look at a path finds nodes of the same shape (`Similar.node?_eq`).
Everything that the walk of a path does is carried by one relation on trails,
`Trail.Similar`.
-/
import WorkspaceAudit.Proofs.Lookup
import WorkspaceAudit.Tree.Resolve

namespace WorkspaceAudit

/-! ### Shapes -/

/-- What is seen of a node from outside. -/
inductive Shape
  | file
  | dir
  | link (target : Path)
  | device (d : Device)

/-- The shape of a node. -/
def Node.shape : Node → Shape
  | .file _ => .file
  | .dir _ => .dir
  | .link target => .link target
  | .device d => .device d

namespace Entries

/-- At every location below stand nodes of the same shape, or none. -/
def Similar (es es' : Entries) : Prop :=
  ∀ loc, (es.at? loc).map Node.shape = (es'.at? loc).map Node.shape

theorem at?_singleton (es : Entries) (n : Name) : es.at? [n] = es.lookup n := by
  rw [at?]
  rcases es.lookup n with - | x
  · rfl
  · cases x <;> rfl

theorem at?_cons_dir {es sub : Entries} {n : Name} (h : es.lookup n = some (.dir sub))
    (loc : Location) : es.at? (n :: loc) = sub.at? loc := by
  rw [at?, h]

theorem Similar.symm {es es' : Entries} (h : Similar es es') : Similar es' es :=
  fun loc => (h loc).symm

theorem Similar.lookup {es es' : Entries} (h : Similar es es') (n : Name) :
    (es.lookup n).map Node.shape = (es'.lookup n).map Node.shape := by
  have h' := h [n]
  rwa [at?_singleton, at?_singleton] at h'

theorem Similar.below {es es' sub sub' : Entries} (h : Similar es es') {n : Name}
    (hn : es.lookup n = some (.dir sub)) (hn' : es'.lookup n = some (.dir sub')) :
    Similar sub sub' := by
  intro loc
  have h' := h (n :: loc)
  rwa [at?_cons_dir hn, at?_cons_dir hn'] at h'

/-- What stands under a name in similar directories. -/
inductive SimilarUnder : Option Node → Option Node → Prop
  | none : SimilarUnder none none
  | file {content content' : Bytes} :
      SimilarUnder (some (.file content)) (some (.file content'))
  | dir {es es' : Entries} : Similar es es' →
      SimilarUnder (some (.dir es)) (some (.dir es'))
  | link {target : Path} : SimilarUnder (some (.link target)) (some (.link target))
  | device {d : Device} : SimilarUnder (some (.device d)) (some (.device d))

/-- The inversion of similarity at a name: the cases in which two directories
can be walked on. -/
theorem Similar.under {es es' : Entries} (h : Similar es es') (n : Name) :
    SimilarUnder (es.lookup n) (es'.lookup n) := by
  have hs := h.lookup n
  rcases e : es.lookup n with - | x <;> rcases e' : es'.lookup n with - | x' <;>
    rw [e, e'] at hs
  · exact .none
  · cases hs
  · cases hs
  · cases x <;> cases x' <;> cases hs
    · exact .file
    · exact .dir (h.below e e')
    · exact .link
    · exact .device

/-! ### Listing in another order -/

/-- The same entries in another order, here or in directories below; no name
stands twice in what is put in another order. -/
inductive Relisted : Entries → Entries → Prop
  | perm {es es' : Entries} : es.Perm es' → (es.Pairwise fun a b => a.1 ≠ b.1) →
      Relisted es es'
  | inside {n : Name} {sub sub' es : Entries} : Relisted sub sub' →
      Relisted ((n, .dir sub) :: es) ((n, .dir sub') :: es)
  | trans {es es' es'' : Entries} : Relisted es es' → Relisted es' es'' → Relisted es es''

theorem at?_cons_congr {es es' : Entries} {n : Name} (h : es.lookup n = es'.lookup n)
    (loc : Location) : es.at? (n :: loc) = es'.at? (n :: loc) := by
  rw [at?, at?, h]

/-- What is listed in another order is similar. -/
theorem Relisted.similar {es es' : Entries} (h : Relisted es es') : Similar es es' := by
  induction h with
  | perm h hes =>
    intro loc
    cases loc with
    | nil => rfl
    | cons n loc => rw [at?_cons_congr (lookup_eq_of_perm h hes n)]
  | @inside n sub sub' es _ ih =>
    intro loc
    cases loc with
    | nil => rfl
    | cons m loc =>
      by_cases hm : m = n
      · subst hm
        rw [at?_cons_dir (List.lookup_cons_self), at?_cons_dir (List.lookup_cons_self)]
        exact ih loc
      · rw [at?_cons_congr]
        rw [lookup_cons_eq, lookup_cons_eq, if_neg hm, if_neg hm]
  | trans _ _ ih ih' => exact fun loc => (ih loc).trans (ih' loc)

end Entries

/-- Trees with nodes of the same shape at the same locations. -/
structure FileTree.Similar (t t' : FileTree) : Prop where
  current : t.current = t'.current
  entries : t.entries.Similar t'.entries

namespace FileTree

theorem Similar.at? {t t' : FileTree} (h : t.Similar t') (loc : Location) :
    (t.at? loc).map Node.shape = (t'.at? loc).map Node.shape :=
  h.entries loc

theorem Similar.symm {t t' : FileTree} (h : t.Similar t') : t'.Similar t :=
  ⟨h.current.symm, h.entries.symm⟩

theorem Similar.trans {t t' t'' : FileTree} (h : t.Similar t') (h' : t'.Similar t'') :
    t.Similar t'' :=
  ⟨h.current.trans h'.current, fun loc => (h.entries loc).trans (h'.entries loc)⟩

/-! ### Trails -/

/-- Trails through the same names, with similar directories. -/
inductive Trail.Similar : Trail → Trail → Prop
  | nil : Trail.Similar [] []
  | cons {n : Name} {es es' : Entries} {here here' : Trail} :
      Entries.Similar es es' → Trail.Similar here here' →
      Trail.Similar ((n, es) :: here) ((n, es') :: here')

theorem Trail.Similar.names {here here' : Trail} (h : here.Similar here') :
    here.map Prod.fst = here'.map Prod.fst := by
  induction h with
  | nil => rfl
  | cons _ _ ih => rw [List.map_cons, List.map_cons, ih]

theorem Trail.Similar.location {here here' : Trail} (h : here.Similar here') :
    here.location = here'.location := by
  rw [Trail.location, Trail.location, h.names]

theorem Trail.Similar.tail {here here' : Trail} (h : here.Similar here') :
    Trail.Similar here.tail here'.tail := by
  cases h with
  | nil => exact .nil
  | cons _ h => exact h

section Walk

variable {t t' : FileTree} (ht : t.Similar t')
include ht

theorem Similar.trail_entries {here here' : Trail} (h : here.Similar here') :
    (here.entries t).Similar (here'.entries t') := by
  cases h with
  | nil => exact ht.entries
  | cons hes _ => exact hes

theorem Similar.trail (loc : Location) : Trail.Similar (t.trail loc) (t'.trail loc) := by
  rw [FileTree.trail, FileTree.trail]
  refine List.foldl_rel (r := Trail.Similar) .nil fun n _ here here' h => ?_
  generalize hx : (Trail.entries t here).lookup n = x
  generalize hx' : (Trail.entries t' here').lookup n = x'
  have hu := (ht.trail_entries h).under n
  rw [hx, hx'] at hu
  cases hu with
  | dir hes => exact .cons hes h
  | _ => exact h

theorem Similar.start (p : Path) : Trail.Similar (t.start p) (t'.start p) := by
  rw [FileTree.start, FileTree.start]
  split
  · exact .nil
  · rw [← ht.current]
    exact ht.trail t.current

/-! ### Walking -/

theorem Similar.walkFrom_eq (aim : Aim)
    {onLink onLink' : Trail → Path → List Step → Except FileError Target}
    (hlink : ∀ {here here' : Trail}, here.Similar here' → ∀ target steps,
      onLink here target steps = onLink' here' target steps)
    (steps : List Step) {here here' : Trail} (h : here.Similar here') :
    walkFrom t aim onLink here steps = walkFrom t' aim onLink' here' steps := by
  -- the trails stay similar; at a link the rest of the walk is handed on
  induction steps generalizing here here' with
  | nil => rw [walkFrom, walkFrom, h.location]
  | cons step steps ih =>
    cases step with
    | stay => rw [walkFrom, walkFrom, ih h]
    | slash => rw [walkFrom, walkFrom, ih h]
    | up => rw [walkFrom, walkFrom, ih h.tail]
    | tooLong => rw [walkFrom, walkFrom]
    | down n =>
      rw [walkFrom, walkFrom]
      generalize hx : (Trail.entries t here).lookup n = x
      generalize hx' : (Trail.entries t' here').lookup n = x'
      have hu := (ht.trail_entries h).under n
      rw [hx, hx'] at hu
      cases hu with
      | none => simp only [h.location]
      | file => simp only [h.location]
      | dir hes => simp only [ih (.cons hes h)]
      | link => simp only [h.location, hlink h]
      | device => simp only [h.location]

theorem Similar.walkLinks_eq (aim : Aim) (links : Nat) (steps : List Step)
    {here here' : Trail} (h : here.Similar here') :
    walkLinks t aim links here steps = walkLinks t' aim links here' steps := by
  -- on the links that may still be followed
  induction links generalizing here here' steps with
  | zero => exact ht.walkFrom_eq aim (fun _ _ _ => rfl) steps h
  | succ links ih =>
    refine ht.walkFrom_eq aim ?_ steps h
    intro here here' h target steps
    by_cases habs : target.isAbsolute
    · rw [if_pos habs, if_pos habs, ih _ .nil]
    · rw [if_neg habs, if_neg habs, ih _ h]

/-- **Similar trees resolve paths alike.** -/
theorem Similar.resolve_eq (aim : Aim) (p : Path) : t.resolve aim p = t'.resolve aim p := by
  rw [resolve, resolve, ht.walkLinks_eq aim linkLimit p.walk (ht.start p)]

/-- A look at a path fails alike, or finds nodes of the same shape. -/
theorem Similar.node?_eq (aim : Aim) (p : Path) :
    (t.node? aim p).map Node.shape = (t'.node? aim p).map Node.shape := by
  rw [node?, node?, ← ht.resolve_eq aim p]
  rcases t.resolve aim p with e | ⟨loc⟩ | ⟨dir, n⟩
  · rfl
  · have hloc := ht.at? loc
    simp only [bind, Except.bind]
    generalize t.at? loc = o at hloc ⊢
    generalize t'.at? loc = o' at hloc ⊢
    cases o <;> cases o'
    · rfl
    · cases hloc
    · cases hloc
    · exact congrArg Except.ok (Option.some.inj hloc)
  · rfl

end Walk

end FileTree

end WorkspaceAudit

/-
WorkspaceAudit/Proofs/Tree/Writes.lean

What a write changes.

`writesTo` tells where a write to a path goes, without the content: to the
file that the path leads to, or to the place of a new one.  A write either
fails and changes nothing, or the content stands there (`writeFile_eq`).

`Written S t t'` says of two trees that files were written in `S`: outside
all looks the same, and in `S` at most a file is new where nothing was.  It
holds after one write (`Takes.written`) and after several (`Written.trans`).
-/
import WorkspaceAudit.Proofs.Tree.Contents

namespace WorkspaceAudit

/-! ### Putting a file twice -/

namespace Entries

theorem set_of_lookup {es : Entries} {n : Name} {x : Node} (h : es.lookup n = some x) :
    set n x es = es := by
  induction es with
  | nil => cases h
  | cons e es ih =>
    obtain ⟨m, y⟩ := e
    rw [lookup_cons_eq] at h
    rw [set]
    by_cases hm : m = n
    · subst hm
      rw [if_pos rfl] at h
      rw [if_pos rfl, Option.some.inj h]
    · rw [if_neg (Ne.symm hm)] at h
      rw [if_neg hm, ih h]

theorem set_set (n : Name) (x y : Node) (es : Entries) :
    set n y (set n x es) = set n y es := by
  induction es with
  | nil => simp [set]
  | cons e es ih =>
    obtain ⟨m, z⟩ := e
    rw [set, set]
    by_cases hm : m = n
    · rw [if_pos hm, if_pos hm, set, if_pos hm]
    · rw [if_neg hm, if_neg hm, set, if_neg hm, ih]

namespace Slot

variable {es : Entries} {loc : Location}

theorem put (h : Slot es loc) (b : Bytes) : Slot (es.put (.file b) loc) loc := by
  induction h with
  | @here es n hn =>
    refine .here fun sub => ?_
    rw [Entries.put, lookup_set, if_pos rfl]
    simp
  | @inside es sub n loc hn h ih =>
    rw [put_inside hn h]
    exact .inside (by rw [lookup_set, if_pos rfl]) ih

theorem at?_put (h : Slot es loc) (b : Bytes) :
    (es.put (.file b) loc).at? loc = some (.file b) := by
  induction h with
  | here hn => rw [Entries.put, at?_singleton, lookup_set, if_pos rfl]
  | @inside es sub n loc hn h ih =>
    rw [put_inside hn h, at?_cons_dir (by rw [lookup_set, if_pos rfl]), ih]

/-- A place in a directory, under a name that stands for no directory. -/
theorem of_parent {sub : Entries} {dir : Location} {n : Name}
    (h : es.at? dir = some (.dir sub)) (hn : ∀ below, sub.lookup n ≠ some (.dir below)) :
    Slot es (dir ++ [n]) := by
  induction dir generalizing es with
  | nil =>
    cases h
    exact .here hn
  | cons m dir ih =>
    by_cases hm : ∃ below, es.lookup m = some (.dir below)
    · obtain ⟨below, hbelow⟩ := hm
      rw [at?_cons_dir hbelow] at h
      exact .inside hbelow (ih h)
    · rw [not_exists] at hm
      rw [at?_cons_of_not_dir hm] at h
      split at h
      · exact absurd h (hm sub)
      · cases h

/-- Putting what is there changes nothing. -/
theorem put_of_at? (h : Slot es loc) {x : Node} (hx : es.at? loc = some x) :
    es.put x loc = es := by
  induction h with
  | here hn =>
    rw [at?_singleton] at hx
    rw [Entries.put, set_of_lookup hx]
  | inside hn h ih =>
    rw [at?_cons_dir hn] at hx
    rw [put_inside hn h, ih hx, set_of_lookup hn]

/-- What is put last stands. -/
theorem put_put (h : Slot es loc) (b b' : Bytes) :
    (es.put (.file b) loc).put (.file b') loc = es.put (.file b') loc := by
  induction h with
  | here hn => rw [Entries.put, Entries.put, Entries.put, set_set]
  | @inside es sub n loc hn h ih =>
    rw [put_inside hn h, put_inside (by rw [lookup_set, if_pos rfl]) (h.put b),
      put_inside hn h, set_set, ih]

end Slot

end Entries

/-- A node as it is seen by a look that does not go into directories. -/
def Node.face (x : Node) : Shape × Option Bytes :=
  (x.shape, x.content?)

theorem Node.shape_of_face {o o' : Option Node} (h : o.map face = o'.map face) :
    o.map shape = o'.map shape := by
  have hfst := congrArg (Option.map Prod.fst) h
  rwa [Option.map_map, Option.map_map] at hfst

namespace FileTree

/-! ### Where a write goes -/

/-- Where a write to a path goes, or why there is none. -/
def writesTo (t : FileTree) (p : Path) : Except FileError Location :=
  match t.resolve writable p with
  | .error e => .error e
  | .ok (.vacant dir n) => .ok (dir ++ [n])
  | .ok (.found loc) =>
    match t.at? loc with
    | some (.dir _) => .error .isDirectory
    | some (.device .full) => .error .noSpace
    | _ => .ok loc

/-- The tree with a content at a location.  A device keeps none. -/
def write (t : FileTree) (loc : Location) (content : Bytes) : FileTree :=
  match t.at? loc with
  | some (.device _) => t
  | _ => t.put loc (.file content)

/-- A path that is followed to its end leads to a node that is no link, or to
a free name in a directory. -/
inductive Ends (t : FileTree) : Except FileError Target → Prop
  | error (e : FileError) : Ends t (.error e)
  | found {loc : Location} {x : Node} : t.at? loc = some x →
      (∀ target, x ≠ .link target) → Ends t (.ok (.found loc))
  | vacant {dir : Location} {n : Name} {es : Entries} : t.at? dir = some (.dir es) →
      es.lookup n = none → Ends t (.ok (.vacant dir n))

section Ends

variable {t : FileTree} {aim : Aim} (haim : aim.follow = true)
include haim

theorem walkFrom_ends {onLink : Trail → Path → List Step → Except FileError Target}
    (hlink : ∀ {here : Trail}, here.Sound t → ∀ target steps,
      t.Ends (onLink here target steps))
    (steps : List Step) {here : Trail} (h : here.Sound t) :
    t.Ends (walkFrom t aim onLink here steps) := by
  induction steps generalizing here with
  | nil =>
    rw [walkFrom]
    exact .found h.at? (by simp)
  | cons step steps ih =>
    cases step with
    | stay =>
      rw [walkFrom]
      exact ih h
    | slash =>
      rw [walkFrom]
      exact ih h
    | up =>
      rw [walkFrom]
      exact ih h.tail
    | tooLong =>
      rw [walkFrom]
      exact .error _
    | down n =>
      rw [walkFrom]
      split
      · exact .error _
      split
      · next hn =>
        split
        · exact .vacant h.at? hn
        · exact .error _
      · rw [haim, Bool.not_true, Bool.and_false]
        exact hlink h _ _
      · next hn => exact ih (.cons h hn)
      · next x hlinkless _ hn =>
        split
        · refine .found (x := x) ?_ hlinkless
          rw [FileTree.at?, Entries.at?_append h.at?, Entries.at?_singleton, hn]
        · exact .error _

theorem walkLinks_ends (links : Nat) (steps : List Step) {here : Trail} (h : here.Sound t) :
    t.Ends (walkLinks t aim links here steps) := by
  induction links generalizing here steps with
  | zero => exact walkFrom_ends haim (fun _ _ _ => .error _) steps h
  | succ links ih =>
    refine walkFrom_ends haim ?_ steps h
    intro here h target steps
    split
    · exact .error _
    · split
      · exact ih _ .nil
      · exact ih _ h

theorem resolve_ends (p : Path) : t.Ends (t.resolve aim p) := by
  rw [resolve]
  split
  · exact .error _
  split
  · exact .error _
  split
  · exact .error _
  · exact walkLinks_ends haim linkLimit p.walk (start_sound t p)

end Ends

variable {t t' t'' : FileTree} {p : Path} {loc : Location}

/-- What is where a write goes: nothing, a file, or a device that takes it. -/
inductive Takes (t : FileTree) (loc : Location) : Prop
  | new : t.at? loc = none → t.entries.Slot loc → Takes t loc
  | file {b : Bytes} : t.at? loc = some (.file b) → t.entries.Slot loc → Takes t loc
  | device : t.at? loc = some (.device .sink) → Takes t loc

theorem takes_of_writesTo (h : t.writesTo p = .ok loc) : t.Takes loc := by
  have hends : t.Ends (t.resolve writable p) := resolve_ends rfl p
  rw [writesTo] at h
  generalize t.resolve writable p = r at h hends
  cases hends with
  | error e => cases h
  | @vacant dir n es hdir hn =>
    cases h
    refine .new ?_ (.of_parent hdir fun sub => by rw [hn]; simp)
    rw [FileTree.at?, Entries.at?_append hdir, Entries.at?_singleton, hn]
  | @found found x hx hlink =>
    dsimp only at h
    rw [hx] at h
    cases x with
    | file b =>
      cases h
      exact .file hx (.of_at? hx (by simp))
    | dir es => cases h
    | link target => exact absurd rfl (hlink target)
    | device d =>
      cases d with
      | sink =>
        cases h
        exact .device hx
      | full => cases h

/-- **A write fails, or its content stands where it goes.** -/
theorem writeFile_eq (t : FileTree) (p : Path) (content : Bytes) :
    t.writeFile p content = (t.writesTo p).map (t.write · content) := by
  have hends : t.Ends (t.resolve writable p) := resolve_ends rfl p
  rw [writeFile, openFile, writesTo]
  generalize t.resolve writable p = r at hends
  cases hends with
  | error e => rfl
  | @vacant dir n es hdir hn =>
    have hslot : t.entries.Slot (dir ++ [n]) := .of_parent hdir fun sub => by rw [hn]; simp
    have hnone : t.at? (dir ++ [n]) = none := by
      rw [FileTree.at?, Entries.at?_append hdir, Entries.at?_singleton, hn]
    have hmade : (t.put (dir ++ [n]) (.file [])).at? (dir ++ [n]) = some (.file []) :=
      hslot.at?_put []
    -- the new file is empty until its content is put into it
    simp only [bind, Except.bind, pure, Except.pure, Except.map, updateFile, hmade, write, hnone]
    rw [put, put, put, hslot.put_put]
  | @found loc x hx hlink =>
    cases x with
    | file b =>
      simp only [bind, Except.bind, pure, Except.pure, Except.map, updateFile, hx, write]
    | dir es => simp only [bind, Except.bind, Except.map, hx]
    | link target => exact absurd rfl (hlink target)
    | device d =>
      cases d <;>
        simp only [bind, Except.bind, pure, Except.pure, Except.map, updateFile, hx, write]

/-! ### What is written stays -/

theorem Takes.write_write (h : t.Takes loc) (b b' : Bytes) :
    (t.write loc b).write loc b' = t.write loc b' := by
  cases h with
  | new hnone hslot =>
    have hput : (t.put loc (.file b)).at? loc = some (.file b) := hslot.at?_put b
    simp only [write, hnone, hput]
    rw [put, put, put, hslot.put_put]
  | file hfile hslot =>
    have hput : (t.put loc (.file b)).at? loc = some (.file b) := hslot.at?_put b
    simp only [write, hfile, hput]
    rw [put, put, put, hslot.put_put]
  | device hdevice => simp only [write, hdevice]

/-- The content stands there; a device has taken it, and keeps none. -/
def Holds (t : FileTree) (loc : Location) (b : Bytes) : Prop :=
  t.at? loc = some (.file b) ∨ t.at? loc = some (.device .sink)

theorem Takes.holds (h : t.Takes loc) (b : Bytes) : (t.write loc b).Holds loc b := by
  cases h with
  | new hnone hslot =>
    simp only [write, hnone]
    exact .inl (hslot.at?_put b)
  | file hfile hslot =>
    simp only [write, hfile]
    exact .inl (hslot.at?_put b)
  | device hdevice =>
    simp only [write, hdevice]
    exact .inr hdevice

/-- Writing what is there changes nothing. -/
theorem Holds.write_eq {b : Bytes} (h : t.Holds loc b) : t.write loc b = t := by
  rcases h with hfile | hdevice
  · have hslot : t.entries.Slot loc := .of_at? hfile (by simp)
    simp only [write, hfile]
    rw [put, hslot.put_of_at? hfile]
  · simp only [write, hdevice]

/-! ### What else a write changes -/

/-- Files were written in `S`: outside all looks the same, and inside at most a
file is new where nothing was. -/
structure Written (S : Location → Prop) (t t' : FileTree) : Prop where
  current : t.current = t'.current
  outside : ∀ loc, ¬ S loc → (t.at? loc).map Node.face = (t'.at? loc).map Node.face
  inside : ∀ loc, S loc → (t.at? loc).map Node.shape = (t'.at? loc).map Node.shape ∨
    t.at? loc = none ∧ (t'.at? loc).map Node.shape = some .file

namespace Written

variable {S S' : Location → Prop}

theorem refl (S : Location → Prop) (t : FileTree) : Written S t t :=
  ⟨rfl, fun _ _ => rfl, fun _ _ => .inl rfl⟩

theorem mono (h : Written S t t') (hS : ∀ loc, S loc → S' loc) : Written S' t t' := by
  refine ⟨h.current, fun loc hloc => h.outside loc (mt (hS loc) hloc), fun loc _ => ?_⟩
  by_cases hloc : S loc
  · exact h.inside loc hloc
  · exact .inl (Node.shape_of_face (h.outside loc hloc))

/-- Nodes of the same shape stand at a location, or a file is new there. -/
theorem shape (h : Written S t t') (loc : Location) :
    (t.at? loc).map Node.shape = (t'.at? loc).map Node.shape ∨
      S loc ∧ t.at? loc = none ∧ (t'.at? loc).map Node.shape = some .file := by
  by_cases hloc : S loc
  · exact (h.inside loc hloc).imp_right fun h => ⟨hloc, h⟩
  · exact .inl (Node.shape_of_face (h.outside loc hloc))

theorem trans (h : Written S t t') (h' : Written S t' t'') : Written S t t'' := by
  refine ⟨h.current.trans h'.current,
    fun loc hloc => (h.outside loc hloc).trans (h'.outside loc hloc), fun loc hloc => ?_⟩
  rcases h.inside loc hloc with hsame | ⟨hnone, hfile⟩
  · rcases h'.inside loc hloc with hsame' | ⟨hnone', hfile'⟩
    · exact .inl (hsame.trans hsame')
    · rw [hnone', Option.map_none, Option.map_eq_none_iff] at hsame
      exact .inr ⟨hsame, hfile'⟩
  · rcases h'.inside loc hloc with hsame' | ⟨hnone', -⟩
    · exact .inr ⟨hnone, hsame' ▸ hfile⟩
    · rw [hnone'] at hfile
      cases hfile

end Written

/-- A write elsewhere leaves what was written. -/
theorem Holds.of_written {S : Location → Prop} {b : Bytes} (h : t.Holds loc b)
    (hw : Written S t t') (hout : ¬ S loc) : t'.Holds loc b := by
  have hface := hw.outside loc hout
  rcases h with hx | hx
  · rw [hx] at hface
    obtain ⟨y, hy, hyx⟩ := Option.map_eq_some_iff.mp hface.symm
    cases y <;> cases hyx
    exact .inl hy
  · rw [hx] at hface
    obtain ⟨y, hy, hyx⟩ := Option.map_eq_some_iff.mp hface.symm
    cases y <;> cases hyx
    exact .inr hy

/-- A write changes nothing but what is where it goes. -/
theorem Takes.written (h : t.Takes loc) (b : Bytes) : Written (· = loc) t (t.write loc b) := by
  have hput : t.entries.Slot loc → t.write loc b = t.put loc (.file b) →
      (∀ x, t.at? loc = some x → x.shape = .file) → Written (· = loc) t (t.write loc b) := by
    intro hslot hwrite hfile
    have hlook := fun {α : Type} (look : Node → α) hdir (loc' : Location) =>
      hslot.map_at?_put look hdir b loc'
    rw [hwrite]
    refine ⟨rfl, fun loc' hne => ?_, ?_⟩
    · rw [put, at?, at?, hlook Node.face (fun _ _ => rfl), if_neg hne]
    · intro loc' heq
      rw [put, at?, at?, hlook Node.shape (fun _ _ => rfl), if_pos heq, heq]
      rcases hx : t.entries.at? loc with - | x
      · exact .inr ⟨rfl, rfl⟩
      · exact .inl (congrArg some (hfile x hx))
  cases h with
  | new hnone hslot =>
    refine hput hslot (by simp only [write, hnone]) fun x hx => ?_
    rw [hnone] at hx
    cases hx
  | file hfile hslot =>
    refine hput hslot (by simp only [write, hfile]) fun x hx => ?_
    rw [hfile] at hx
    cases hx
    rfl
  | device hdevice =>
    simp only [write, hdevice]
    exact .refl _ _

end FileTree

end WorkspaceAudit

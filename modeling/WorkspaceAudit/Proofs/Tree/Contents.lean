/-
WorkspaceAudit/Proofs/Tree/Contents.lean

Trees that differ in the contents of some files.

`SameBut S` says of two trees that nodes of the same shape stand at the same
locations, and that what is in a file is the same in both unless its location
is in `S`.  What a path leads to is not seen by such a change, so a read is
the same wherever the path does not lead into `S` (`SameBut.readText_eq`).

A change of the bytes of one file is of this kind (`sameBut_updateFile`), and
with it every line that is added to a log file.
-/
import WorkspaceAudit.Proofs.Tree.Landing

namespace WorkspaceAudit

/-! ### Putting a file -/

namespace Entries

theorem lookup_set (n m : Name) (x : Node) (es : Entries) :
    (set n x es).lookup m = if m = n then some x else es.lookup m := by
  induction es with
  | nil => rw [set, lookup_cons_eq, List.lookup_nil]
  | cons e es ih =>
    obtain ⟨k, y⟩ := e
    rw [set]
    split
    · next hk =>
      subst hk
      rw [lookup_cons_eq, lookup_cons_eq]
      split <;> rfl
    · next hk =>
      rw [lookup_cons_eq, lookup_cons_eq, ih]
      by_cases hm : m = k
      · subst hm
        rw [if_pos rfl, if_pos rfl, if_neg hk]
      · rw [if_neg hm, if_neg hm]

theorem at?_set_of_ne {n m : Name} (h : m ≠ n) (x : Node) (es : Entries) (loc : Location) :
    (set n x es).at? (m :: loc) = es.at? (m :: loc) :=
  at?_cons_congr (by rw [lookup_set, if_neg h]) loc

/-- Nothing is below what is no directory. -/
theorem at?_cons_of_not_dir {es : Entries} {n : Name}
    (h : ∀ sub, es.lookup n ≠ some (.dir sub)) (loc : Location) :
    es.at? (n :: loc) = if loc.isEmpty then es.lookup n else none := by
  rw [at?]
  rcases hn : es.lookup n with - | x
  · cases loc <;> rfl
  · cases x with
    | dir sub => exact absurd hn (h sub)
    | _ => rfl

/-- Directories alone lead to the location, and no directory stands there. -/
inductive Slot : Entries → Location → Prop
  | here {es : Entries} {n : Name} : (∀ sub, es.lookup n ≠ some (.dir sub)) → Slot es [n]
  | inside {es sub : Entries} {n : Name} {loc : Location} :
      es.lookup n = some (.dir sub) → Slot sub loc → Slot es (n :: loc)

namespace Slot

variable {es : Entries} {loc : Location}

theorem ne_nil (h : Slot es loc) : loc ≠ [] := by
  cases h <;> exact List.cons_ne_nil _ _

/-- A node other than a directory stands in a slot. -/
theorem of_at? {x : Node} (h : es.at? loc = some x) (hx : ∀ sub, x ≠ .dir sub) :
    Slot es loc := by
  induction loc generalizing es with
  | nil =>
    cases h
    exact absurd rfl (hx es)
  | cons n loc ih =>
    by_cases hn : ∃ sub, es.lookup n = some (.dir sub)
    · obtain ⟨sub, hsub⟩ := hn
      rw [at?_cons_dir hsub] at h
      exact .inside hsub (ih h)
    · rw [not_exists] at hn
      rw [at?_cons_of_not_dir hn] at h
      cases loc with
      | nil => exact .here hn
      | cons m loc => cases h

theorem put_inside {sub : Entries} {n : Name} (hn : es.lookup n = some (.dir sub))
    (h : Slot sub loc) (x : Node) : put x (n :: loc) es = set n (.dir (put x loc sub)) es := by
  rw [put, hn]
  exact h.ne_nil

/-- What is seen of the nodes of a tree after a file was put into a slot, by a
look that does not go into directories. -/
theorem map_at?_put {α : Type} (look : Node → α)
    (hdir : ∀ es es', look (.dir es) = look (.dir es')) (h : Slot es loc) (b : Bytes)
    (loc' : Location) :
    ((es.put (.file b) loc).at? loc').map look =
      if loc' = loc then some (look (.file b)) else (es.at? loc').map look := by
  -- along the location that is written, the other one going the same way or not
  induction h generalizing loc' with
  | @here es n hn =>
    rw [put]
    cases loc' with
    | nil =>
      rw [if_neg (List.cons_ne_nil n []).symm]
      exact congrArg some (hdir _ _)
    | cons m loc' =>
      by_cases hm : m = n
      · subst hm
        rw [at?_cons_of_not_dir hn, at?, lookup_set, if_pos rfl]
        cases loc' <;> simp
      · rw [at?_set_of_ne hm, if_neg fun he => hm (List.cons.inj he).1]
  | @inside es sub n loc hn h ih =>
    rw [put_inside hn h]
    cases loc' with
    | nil =>
      rw [if_neg (List.cons_ne_nil n loc).symm]
      exact congrArg some (hdir _ _)
    | cons m loc' =>
      by_cases hm : m = n
      · subst hm
        have hset : (set m (.dir (put (.file b) loc sub)) es).lookup m =
            some (.dir (put (.file b) loc sub)) := by
          rw [lookup_set, if_pos rfl]
        rw [at?_cons_dir hset, at?_cons_dir hn, ih]
        simp
      · rw [at?_set_of_ne hm, if_neg fun he => hm (List.cons.inj he).1]

end Slot

end Entries

/-! ### The same but for some contents -/

/-- What is in a file; there is nothing in a node of another kind. -/
def Node.content? : Node → Option Bytes
  | .file content => some content
  | _ => none

namespace FileTree

/-- Similar trees with the same contents of files outside `S`. -/
structure SameBut (S : Location → Prop) (t t' : FileTree) : Prop where
  similar : t.Similar t'
  content : ∀ loc, ¬ S loc →
    (t.at? loc).map Node.content? = (t'.at? loc).map Node.content?

namespace SameBut

variable {S : Location → Prop} {t t' t'' : FileTree}

theorem refl (S : Location → Prop) (t : FileTree) : SameBut S t t :=
  ⟨⟨rfl, fun _ => rfl⟩, fun _ _ => rfl⟩

theorem symm (h : SameBut S t t') : SameBut S t' t :=
  ⟨h.similar.symm, fun loc hloc => (h.content loc hloc).symm⟩

theorem trans (h : SameBut S t t') (h' : SameBut S t' t'') : SameBut S t t'' :=
  ⟨h.similar.trans h'.similar, fun loc hloc => (h.content loc hloc).trans (h'.content loc hloc)⟩

theorem mono {S' : Location → Prop} (h : SameBut S t t') (hS : ∀ loc, S loc → S' loc) :
    SameBut S' t t' :=
  ⟨h.similar, fun loc hloc => h.content loc (mt (hS loc) hloc)⟩

end SameBut

/-- Other bytes in a file are a change of the content at its location. -/
theorem sameBut_put {t : FileTree} {loc : Location} {b : Bytes}
    (h : t.at? loc = some (.file b)) (b' : Bytes) :
    t.SameBut (· = loc) (t.put loc (.file b')) := by
  have hput := fun {α : Type} (look : Node → α) hdir (loc' : Location) =>
    (Entries.Slot.of_at? h fun _ => by simp).map_at?_put look hdir b' loc'
  refine ⟨⟨rfl, fun loc' => ?_⟩, fun loc' hne => ?_⟩
  · rw [put, hput Node.shape (fun _ _ => rfl)]
    split
    · next heq =>
      subst heq
      exact congrArg (Option.map Node.shape) h
    · rfl
  · rw [put, at?, at?, hput Node.content? (fun _ _ => rfl), if_neg hne]

theorem sameBut_updateFile {t t' : FileTree} {loc : Location} {change : Bytes → Bytes}
    (h : t.updateFile loc change = .ok t') : t.SameBut (· = loc) t' := by
  rw [updateFile] at h
  split at h
  · next b hb =>
    cases h
    exact sameBut_put hb _
  · cases h
  · cases h
  · cases h
    exact SameBut.refl _ _

/-! ### Reading -/

/-- Whether a path leads to this location, links followed. -/
def leadsTo (t : FileTree) (loc : Location) (p : Path) : Bool :=
  match t.resolve existing p with
  | .ok (.found found) => found = loc
  | _ => false

theorem leadsTo_iff {t : FileTree} {loc : Location} {p : Path} :
    t.leadsTo loc p = true ↔ t.resolve existing p = .ok (.found loc) := by
  rw [leadsTo]
  rcases t.resolve existing p with e | ⟨found⟩ | ⟨dir, n⟩ <;> simp

namespace SameBut

variable {S : Location → Prop} {t t' : FileTree}

theorem leadsTo_eq (h : SameBut S t t') (loc : Location) (p : Path) :
    t.leadsTo loc p = t'.leadsTo loc p := by
  rw [leadsTo, leadsTo, h.similar.resolve_eq existing p]

/-- The bytes that a node gives are told by its shape and its content. -/
theorem readBytes_eq (h : SameBut S t t') {p : Path}
    (hp : ∀ loc, S loc → t.leadsTo loc p = false) : t.readBytes p = t'.readBytes p := by
  rw [readBytes, readBytes, node?, node?, ← h.similar.resolve_eq existing p]
  rcases hr : t.resolve existing p with e | ⟨loc⟩ | ⟨dir, n⟩
  · rfl
  · -- the path leads to a node outside `S`, which both trees show alike
    have hout : ¬ S loc := by
      intro hloc
      have hfalse := hp loc hloc
      rw [leadsTo_iff.mpr hr] at hfalse
      cases hfalse
    have hshape := h.similar.at? loc
    have hcontent := h.content loc hout
    simp only [bind, Except.bind]
    generalize t.at? loc = o at hshape hcontent ⊢
    generalize t'.at? loc = o' at hshape hcontent ⊢
    cases o with
    | none =>
      cases o' with
      | none => rfl
      | some x' => cases hshape
    | some x =>
      cases o' with
      | none => cases hshape
      | some x' =>
        cases x <;> cases x' <;> cases hshape
        · cases hcontent
          rfl
        · rfl
        · rfl
        · rfl
  · rfl

/-- **A read does not see a change elsewhere.** -/
theorem readText_eq (h : SameBut S t t') {p : Path}
    (hp : ∀ loc, S loc → t.leadsTo loc p = false) : t.readText p = t'.readText p := by
  rw [readText, readText, h.readBytes_eq hp]

end SameBut

/-! ### Bytes and texts -/

theorem readText_eq_ok_iff {t : FileTree} {p : Path} {text : String} :
    t.readText p = .ok text ↔ t.readBytes p = .ok (Bytes.ofText text) := by
  rw [readText]
  rcases t.readBytes p with e | bytes
  · constructor <;> intro h <;> cases h
  · simp only [bind, Except.bind]
    constructor
    · intro h
      split at h
      · next text' htext =>
        cases h
        rw [Bytes.text?_eq_some_iff.mp htext]
      · cases h
    · intro h
      cases h
      rw [Bytes.text?_ofText]
      rfl

/-- A file that can be read may still hold no text. -/
theorem readText_of_not_text {t : FileTree} {p : Path} {bytes : Bytes}
    (h : t.readBytes p = .ok bytes) (hno : ∀ text, bytes ≠ Bytes.ofText text) :
    t.readText p = .error .notText := by
  have hnone : bytes.text? = none := by
    rw [Option.eq_none_iff_forall_ne_some]
    exact fun text htext => hno text (Bytes.eq_ofText_of_text? htext)
  rw [readText, h]
  simp only [bind, Except.bind, hnone]

end FileTree

end WorkspaceAudit

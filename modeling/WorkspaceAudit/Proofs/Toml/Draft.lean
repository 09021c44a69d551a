/-
WorkspaceAudit/Proofs/Toml/Draft.lean

How a draft grows under headers that are new.

A header whose first name is not there yet adds one field to the root: the tables
on the way and, at the end of it, the table of the header (`KeyPath.holding`).  A
value is then added at the end of that table, and what stood in the root before
stays as it is (`openTable_new`, `insert_last`).  A key of two names makes a table in
that table, or adds to the one that it has made (`insert_dotted_more`).

The fields of a closed table are sorted, which does not matter to who asks for one
of them (`get?_close`), and how the tables on the way came to be leaves no trace
(`close_under`).  The entries of a table between braces, if each has a name of its own,
are the fields of its value (`inlineTable?_fieldEntry`).
-/
import WorkspaceAudit.Proofs.Lookup
import WorkspaceAudit.Toml.Draft

namespace WorkspaceAudit.Toml

namespace Fields

/-! ### New fields -/

theorem put_append {root : Fields} {key : String} (h : root.lookup key = none) (fs : Fields)
    (item : Item) :
    put key item (root ++ fs) = root ++ put key item fs := by
  induction root with
  | nil => rfl
  | cons f root ih =>
    obtain ⟨k, i⟩ := f
    rw [lookup_cons_eq] at h
    split at h
    · cases h
    · next hne => rw [List.cons_append, put, if_neg fun heq => hne heq.symm, ih h, List.cons_append]

theorem put_new {root : Fields} {key : String} (h : root.lookup key = none) (item : Item) :
    put key item root = root ++ [(key, item)] := by
  have happend := put_append h [] item
  rwa [List.append_nil] at happend

/-! ### Along a path -/

/-- The tables along a path, the last of which has a header and these fields. -/
def under (fs : Fields) (last : String) : List String → Fields
  | [] => [(last, .table .header fs)]
  | k :: ks => [(k, .table .passage (under fs last ks))]

variable {change : Origin → Fields → Except Cause Fields} {last : String}

/-- The way into the last table leaves the fields before it as they are. -/
theorem descend_table {way : Passage} {root : Fields} {key : String}
    (hnew : root.lookup key = none) {origin' : Origin}
    (hway : (way.makes = .dotted && origin' = .header) = false) {fs fs' : Fields}
    {walked : List String} (keys : List String)
    (h : descend way change (walked ++ [key]) keys origin' fs = .ok fs') (origin : Origin) :
    descend way change walked (key :: keys) origin (root ++ [(key, .table origin' fs)]) =
      .ok (root ++ [(key, .table origin' fs')]) := by
  rw [descend, List.lookup_append, hnew, Option.none_or, List.lookup_cons_self]
  dsimp only
  rw [hway, if_neg Bool.false_ne_true, h]
  show Except.ok (put key (.table origin' fs') (root ++ [(key, .table origin' fs)])) = _
  rw [put_append hnew, put, if_pos rfl]

/-- A path that leads out of the root is made, up to what the change puts there. -/
theorem descend_new (fs : Fields)
    (hchange : ∀ origin parent, parent.lookup last = none →
      change origin parent = .ok (parent ++ [(last, .table .header fs)]))
    (parents walked : List String) (origin : Origin) (root : Fields)
    (hnew : root.lookup (parents.headD last) = none) :
    descend ⟨.passage, false⟩ change walked parents origin root =
      .ok (root ++ under fs last parents) := by
  induction parents generalizing walked origin root with
  | nil => exact hchange origin root hnew
  | cons k ks ih =>
    rw [List.headD_cons] at hnew
    have hmade := ih (walked ++ [k]) .passage [] rfl
    rw [List.nil_append] at hmade
    rw [descend, hnew]
    dsimp only
    rw [hmade]
    exact congrArg Except.ok (put_new hnew _)

/-- The table at the end of the last path is changed, and nothing else is. -/
theorem descend_last {fs : Fields} (fs' : Fields) (hchange : change .header fs = .ok fs')
    (parents walked : List String) (origin : Origin) (root : Fields)
    (hnew : root.lookup (parents.headD last) = none) :
    descend ⟨.passage, false⟩ change walked (parents ++ [last]) origin
      (root ++ under fs last parents) = .ok (root ++ under fs' last parents) := by
  induction parents generalizing walked origin root with
  | nil => exact descend_table hnew rfl [] hchange origin
  | cons k ks ih => exact descend_table hnew rfl _ (ih (walked ++ [k]) .passage [] rfl) origin

/-! ### Values under keys -/

section Insert

variable {fs : Fields} {name : String} (hname : fs.lookup name = none)
include hname

/-- A value under a new name is added at the end. -/
theorem insert_new (inline : Bool) (repeated : Cause) (v : Value) :
    insert inline repeated ⟨[], name⟩ v fs = .ok (fs ++ [(name, .leaf v)]) := by
  rw [insert, descend, List.isEmpty_nil, if_neg (by decide), hname]

/-- A key of two new names makes the table of the first one. -/
theorem insert_dotted_new (inline : Bool) (repeated : Cause) (last : String) (v : Value) :
    insert inline repeated ⟨[name], last⟩ v fs =
      .ok (fs ++ [(name, .table .dotted [(last, .leaf v)])]) := by
  rw [insert, descend, hname]
  exact congrArg Except.ok (put_new hname _)

/-- After that such a key adds to the table. -/
theorem insert_dotted_more {gs : Fields} {last : String} (hlast : gs.lookup last = none)
    (inline : Bool) (repeated : Cause) (v : Value) :
    insert inline repeated ⟨[name], last⟩ v (fs ++ [(name, .table .dotted gs)]) =
      .ok (fs ++ [(name, .table .dotted (gs ++ [(last, .leaf v)]))]) := by
  apply descend_table hname rfl
  rw [descend, List.isEmpty_cons, if_neg (by decide), hlast]

end Insert

end Fields

/-! ### Headers -/

/-- The name with which a key starts. -/
def KeyPath.first (k : KeyPath) : String :=
  k.parents.headD k.last

/-- The tables of a header with these fields at its end. -/
def KeyPath.holding (k : KeyPath) (fs : Fields) : Fields :=
  Fields.under fs k.last k.parents

theorem KeyPath.map_fst_holding (k : KeyPath) (fs : Fields) :
    (k.holding fs).map Prod.fst = [k.first] := by
  rw [holding, first]
  cases k.parents <;> rfl

namespace Draft

variable {root : Fields} {k : KeyPath} (hnew : root.lookup k.first = none)
include hnew

/-- A new header opens an empty table. -/
theorem openTable_new (header : List String) :
    openTable ⟨root, header⟩ k = .ok ⟨root ++ k.holding [], k.names⟩ := by
  rw [openTable, Fields.descend_new [] ?_ k.parents [] .header root hnew]
  · rfl
  · intro origin parent h
    rw [h]

/-- What a key adds to the last table, it adds to the draft. -/
theorem insert_at_last {fs fs' : Fields} {key : KeyPath} {v : Value}
    (h : Fields.insert false (.repeatedIn k.names key.last) key v fs = .ok fs') :
    insert ⟨root ++ k.holding fs, k.names⟩ key v = .ok ⟨root ++ k.holding fs', k.names⟩ := by
  have hlast : Fields.descend ⟨.passage, false⟩
      (fun _ t => Fields.insert false (.repeatedIn k.names key.last) key v t) [] k.names .header
      (root ++ k.holding fs) = .ok (root ++ k.holding fs') := by
    refine Fields.descend_last fs' ?_ k.parents [] .header root hnew
    exact h
  rw [insert, hlast]
  rfl

/-- A value under a new name is added at the end of the last table. -/
theorem insert_last {fs : Fields} {name : String} (hname : fs.lookup name = none) (v : Value) :
    insert ⟨root ++ k.holding fs, k.names⟩ ⟨[], name⟩ v =
      .ok ⟨root ++ k.holding (fs ++ [(name, .leaf v)]), k.names⟩ :=
  insert_at_last hnew (Fields.insert_new hname _ _ _)

end Draft

/-! ### Values -/

namespace Fields

theorem values_append (fs gs : Fields) : values (fs ++ gs) = values fs ++ values gs := by
  induction fs with
  | nil => rfl
  | cons f fs ih =>
    obtain ⟨k, i⟩ := f
    rw [List.cons_append, values, values, ih, List.cons_append]

theorem map_fst_values (fs : Fields) : (values fs).map Prod.fst = fs.map Prod.fst := by
  induction fs with
  | nil => rfl
  | cons f fs ih =>
    obtain ⟨k, i⟩ := f
    rw [values, List.map_cons, List.map_cons, ih]

theorem perm_insertSorted (f : String × Value) (gs : List (String × Value)) :
    (insertSorted f gs).Perm (f :: gs) := by
  induction gs with
  | nil => exact .refl _
  | cons g gs ih =>
    rw [insertSorted]
    split
    · exact .refl _
    · exact (ih.cons g).trans (.swap f g gs)

/-- Sorting the fields only puts them in another order. -/
theorem perm_sorted (fs : List (String × Value)) : (fs.foldr insertSorted []).Perm fs := by
  induction fs with
  | nil => exact .refl _
  | cons f fs ih => exact (perm_insertSorted f _).trans (ih.cons f)

/-- A table is closed as a table, unless it stands for a date or a time. -/
theorem get?_close {fs : List (String × Value)} (hplain : datetime? fs = none)
    (hdistinct : fs.Pairwise fun a b => a.1 ≠ b.1) (key : String) :
    (close fs).get? key = fs.lookup key := by
  rw [close, hplain]
  exact (lookup_eq_of_perm (perm_sorted fs).symm hdistinct key).symm

theorem datetime?_eq_none_of_key {fs : List (String × Value)}
    (h : ∀ f ∈ fs.head?, f.1 ≠ datetimeKey) : datetime? fs = none := by
  unfold datetime?
  split
  · next k s _ => exact if_neg (h _ rfl)
  · rfl

theorem datetime?_eq_none_of_value {fs : List (String × Value)}
    (h : ∀ f ∈ fs.head?, ∀ s, f.2 ≠ .string s) : datetime? fs = none := by
  unfold datetime?
  split
  · next k s _ => exact absurd rfl (h _ rfl s)
  · rfl

/-- A closed table is no string. -/
theorem close_ne_string (fs : List (String × Value)) (s : String) : close fs ≠ .string s := by
  rw [close]
  split <;> exact Value.noConfusion

/-- A table of one field that is no string. -/
theorem close_singleton (name : String) {v : Value} (hv : ∀ s, v ≠ .string s) :
    close [(name, v)] = .table [(name, v)] := by
  rw [close, datetime?_eq_none_of_value fun f hf => by cases hf; exact hv]
  rfl

/-- Tables in tables, one for each key of a path, with a value at its end. -/
def along : List String → Value → Value
  | [], v => v
  | k :: ks, v => .table [(k, along ks v)]

theorem along_append (path rest : List String) (v : Value) :
    along (path ++ rest) v = along path (along rest v) := by
  induction path with
  | nil => rfl
  | cons k ks ih => rw [List.cons_append, along, along, ih]

/-- The tables along a path are closed as such, with the last table at its end. -/
theorem close_under (fs : Fields) (last : String) (parents : List String) :
    close (values (under fs last parents)) = along (parents ++ [last]) (close (values fs)) := by
  induction parents with
  | nil => exact close_singleton last (close_ne_string _)
  | cons k ks ih =>
    rw [List.cons_append, along, ← ih]
    exact close_singleton k (close_ne_string _)

theorem under_value_ne_string (fs : Fields) (last : String) (parents : List String) :
    ∀ f ∈ values (under fs last parents), ∀ s, f.2 ≠ .string s := by
  intro f hf s
  cases parents with
  | nil =>
    obtain rfl := List.mem_singleton.mp hf
    exact close_ne_string _ s
  | cons k ks =>
    obtain rfl := List.mem_singleton.mp hf
    exact close_ne_string _ s

end Fields

/-! ### Tables between braces -/

namespace Fields

/-- Values as the fields of a draft. -/
def leaves (fs : List (String × Value)) : Fields :=
  fs.map fun f => (f.1, .leaf f.2)

theorem lookup_leaves_eq_none {fs : List (String × Value)} {name : String}
    (h : name ∉ fs.map Prod.fst) : (leaves fs).lookup name = none := by
  rw [lookup_eq_none_iff, leaves, List.map_map]
  exact h

theorem values_leaves (fs : List (String × Value)) : values (leaves fs) = fs := by
  induction fs with
  | nil => rfl
  | cons f fs ih => exact congrArg (f :: ·) ih

/-- Fields that are in order are closed as they are. -/
theorem close_of_ordered {fs : List (String × Value)} (hplain : datetime? fs = none)
    (h : fs.Pairwise fun a b => a.1 < b.1) : close fs = .table fs := by
  have hsorted : fs.foldr insertSorted [] = fs := by
    clear hplain
    induction fs with
    | nil => rfl
    | cons f fs ih =>
      obtain ⟨hf, hfs⟩ := List.pairwise_cons.mp h
      rw [List.foldr_cons, ih hfs]
      cases fs with
      | nil => rfl
      | cons g fs => exact if_pos (hf g List.mem_cons_self)
  rw [close, hplain]
  exact congrArg Value.table hsorted

end Fields

/-- A field as an entry of an inline table. -/
def fieldEntry (f : String × Value) : KeyPath × Value :=
  (⟨[], f.1⟩, f.2)

/-- Each entry with a new name adds its field at the end. -/
theorem foldlM_fieldEntry (before : List (String × Value)) {after : List (String × Value)}
    (hdistinct : ((before ++ after).map Prod.fst).Nodup) :
    (after.map fieldEntry).foldlM (fun fs (e : KeyPath × Value) =>
        Fields.insert true (.repeatedKey e.1.last) e.1 e.2 fs) (Fields.leaves before) =
      .ok (Fields.leaves (before ++ after)) := by
  induction after generalizing before with
  | nil =>
    rw [List.append_nil]
    rfl
  | cons f after ih =>
    have hnew := Fields.lookup_leaves_eq_none (not_mem_before_of_nodup hdistinct)
    have hinsert := Fields.insert_new hnew true (.repeatedKey f.1) f.2
    have hconcat : Fields.leaves before ++ [(f.1, .leaf f.2)] = Fields.leaves (before ++ [f]) := by
      simp [Fields.leaves]
    rw [hconcat] at hinsert
    rw [List.append_cons] at hdistinct ⊢
    rw [List.map_cons, List.foldlM_cons]
    dsimp only [fieldEntry]
    rw [hinsert]
    exact ih _ hdistinct

/-- Entries with names of their own make a table of these fields. -/
theorem inlineTable?_fieldEntry {fs : List (String × Value)}
    (hdistinct : (fs.map Prod.fst).Nodup) :
    inlineTable? (fs.map fieldEntry) = .ok (Fields.close fs) := by
  have hall := foldlM_fieldEntry [] hdistinct
  rw [inlineTable?]
  show (List.foldlM _ (Fields.leaves []) _ >>= _) = _
  rw [hall, List.nil_append]
  show Except.ok (Fields.close (Fields.values (Fields.leaves fs))) = _
  rw [Fields.values_leaves]

end WorkspaceAudit.Toml

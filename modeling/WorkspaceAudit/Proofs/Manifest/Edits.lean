/-
WorkspaceAudit/Proofs/Manifest/Edits.lean

What a change of a manifest does to its issues.

`Edited path` says of two documents that they differ at most at the end of a
path of keys: one key of one table, at any depth, was added, changed or removed.
Nothing is seen of it on a path that parts from that one (`Edited.at?_eq`), and
every place of the check has a path of its own.  So each place is checked apart
from the others, and

* a value that complies, put at one place, takes away the issues of that place
  and leaves all others as they are and where they are (`Amends.located_eq`);
* a change on a path that no place is on, or below a place in a field that is
  not checked, leaves the issues as they are (`Unchecked.located_eq`).

Many such changes, one after the other, are `Amended`.
-/
import WorkspaceAudit.Proofs.Manifest.Deviations

namespace WorkspaceAudit.Manifest

/-! ### Paths that part -/

/-- Two paths of keys part: neither is the start of the other. -/
inductive Parts : List String → List String → Prop
  | here {k k' : String} (ks ks' : List String) : k ≠ k' → Parts (k :: ks) (k' :: ks')
  | inside {k : String} {ks ks' : List String} : Parts ks ks' → Parts (k :: ks) (k :: ks')

theorem Parts.append_left (path : List String) {ks ks' : List String} (h : Parts ks ks') :
    Parts (path ++ ks) (path ++ ks') := by
  induction path with
  | nil => exact h
  | cons k path ih => exact .inside ih

/-- A section is told by the first of its keys. -/
theorem Section.keys_head?_injective {s s' : Section} (h : s.keys.head? = s'.keys.head?) :
    s = s' := by
  revert h
  cases s <;> cases s' <;> decide

theorem Section.exists_keys_eq_cons (s : Section) : ∃ k ks, s.keys = k :: ks := by
  cases s <;> exact ⟨_, _, rfl⟩

/-- Different sections stand apart in every document. -/
theorem Section.parts {s s' : Section} (h : s ≠ s') (ks ks' : List String) :
    Parts (s.keys ++ ks) (s'.keys ++ ks') := by
  obtain ⟨k, rest, hk⟩ := s.exists_keys_eq_cons
  obtain ⟨k', rest', hk'⟩ := s'.exists_keys_eq_cons
  have hne : k ≠ k' := by
    intro heq
    apply h
    apply Section.keys_head?_injective
    rw [hk, hk', heq]
    rfl
  rw [hk, hk']
  exact .here _ _ hne

/-- Different places stand apart, as no name is in a table twice. -/
theorem Place.parts {t : Expectations} {x y : Place} (hx : x.2 ∈ t.entries)
    (hy : y.2 ∈ t.entries) (h : x ≠ y) : Parts x.keys y.keys := by
  obtain ⟨s, e⟩ := x
  obtain ⟨s', e'⟩ := y
  by_cases hs : s = s'
  · subst hs
    have hname : e.name ≠ e'.name := by
      intro hname
      have he : e = e' := List.inj_on_of_nodup_map t.distinct hx hy hname
      exact h (by rw [he])
    exact .append_left _ (.here [] [] hname)
  · exact Section.parts hs _ _

/-! ### Documents that differ in one place -/

/-- Two tables have the same under every key but one. -/
def AgreeBut (k : String) (fs fs' : List (String × Toml.Value)) : Prop :=
  ∀ k', k' ≠ k → fs'.lookup k' = fs.lookup k'

theorem AgreeBut.symm {k : String} {fs fs' : List (String × Toml.Value)} (h : AgreeBut k fs fs') :
    AgreeBut k fs' fs :=
  fun k' hne => (h k' hne).symm

theorem agreeBut_replace (before after : List (String × Toml.Value)) (k : String)
    (v v' : Toml.Value) : AgreeBut k (before ++ (k, v) :: after) (before ++ (k, v') :: after) := by
  intro k' hne
  rw [List.lookup_append, List.lookup_append, lookup_cons_eq, lookup_cons_eq, if_neg hne,
    if_neg hne]

theorem agreeBut_insert (before after : List (String × Toml.Value)) (k : String)
    (v : Toml.Value) : AgreeBut k (before ++ after) (before ++ (k, v) :: after) := by
  intro k' hne
  rw [List.lookup_append, List.lookup_append, lookup_cons_eq, if_neg hne]

/-- `Edited path document document'`: all but what stands at the end of the path is
the same.  The last key of the path was added to a table that both documents
have, or is there with another value, or was removed. -/
inductive Edited : List String → Toml.Value → Toml.Value → Prop
  | here {k : String} {fs fs' : List (String × Toml.Value)} :
      AgreeBut k fs fs' → Edited [k] (.table fs) (.table fs')
  | inside {k : String} {ks : List String} {fs fs' : List (String × Toml.Value)}
      {v v' : Toml.Value} :
      AgreeBut k fs fs' → fs.lookup k = some v → fs'.lookup k = some v' → Edited ks v v' →
      Edited (k :: ks) (.table fs) (.table fs')

theorem at?_table (fs : List (String × Toml.Value)) (k : String) (ks : List String) :
    at? (.table fs) (k :: ks) = (fs.lookup k).bind fun v => at? v ks := rfl

namespace Edited

variable {path : List String} {document document' : Toml.Value}

/-- **An edit is not seen on a path that parts from it.** -/
theorem at?_eq (h : Edited path document document') {other : List String}
    (hparts : Parts path other) : at? document' other = at? document other := by
  induction h generalizing other with
  | @here k fs fs' hagree =>
    cases hparts with
    | here _ ks' hne => rw [at?_table, at?_table, hagree _ hne.symm]
    | inside hparts => cases hparts
  | @inside k ks fs fs' v v' hagree hv hv' _ ih =>
    cases hparts with
    | here _ ks' hne => rw [at?_table, at?_table, hagree _ hne.symm]
    | inside hparts =>
      rw [at?_table, at?_table, hv, hv', Option.bind_some, Option.bind_some, ih hparts]

/-- Both documents have the table in which the last key stands. -/
theorem tables {k : String} (h : Edited (path ++ [k]) document document') :
    ∃ fs fs', at? document path = some (.table fs) ∧ at? document' path = some (.table fs') ∧
      AgreeBut k fs fs' := by
  induction path generalizing document document' with
  | nil =>
    cases h with
    | here hagree => exact ⟨_, _, rfl, rfl, hagree⟩
    | inside _ _ _ h => cases h
  | cons a path ih =>
    generalize hwhole : a :: path ++ [k] = whole at h
    cases h with
    | here => simp at hwhole
    | @inside _ _ fs fs' v v' hagree hv hv' h =>
      obtain ⟨rfl, rfl⟩ := List.cons.inj hwhole
      obtain ⟨gs, gs', hgs, hgs', hrest⟩ := ih h
      refine ⟨gs, gs', ?_, ?_, hrest⟩
      · rw [at?_table, hv, Option.bind_some, hgs]
      · rw [at?_table, hv', Option.bind_some, hgs']

/-- What is found at a place depends on what stands there alone. -/
theorem spot_eq {x : Place} (h : Edited path document document') (hparts : Parts path x.keys) :
    spot document' x = spot document x := by
  rw [spot, spot, h.at?_eq hparts]

end Edited

/-! ### Values that comply -/

/-- A value that complies with an expectation of the table is put at the place, in
a section that is a table; something stood there before, or nothing did. -/
structure Amends (t : Expectations) (x : Place) (document document' : Toml.Value) : Prop where
  listed : x.2 ∈ t.entries
  edited : Edited x.keys document document'
  complies : ∃ v, at? document' x.keys = some v ∧ Complies x.2 v

/-- Values that comply are put at places, one after the other. -/
inductive Amended (t : Expectations) : List Place → Toml.Value → Toml.Value → Prop
  | nil {document : Toml.Value} : Amended t [] document document
  | cons {x : Place} {xs : List Place} {document document' document'' : Toml.Value} :
      Amends t x document document' → Amended t xs document' document'' →
      Amended t (x :: xs) document document''

theorem filter_spot_self (document : Toml.Value) (x : Place) :
    (spot document x).filter (fun p => place p ≠ x) = [] := by
  rw [List.filter_eq_nil_iff]
  intro p hp
  simp [place_of_mem_spot hp]

theorem filter_spot_of_ne (document : Toml.Value) {x y : Place} (h : y ≠ x) :
    (spot document y).filter (fun p => place p ≠ x) = spot document y := by
  rw [List.filter_eq_self]
  intro p hp
  simp [place_of_mem_spot hp, h]

variable {t : Expectations} {document document' : Toml.Value}

/-- **What complies takes away what was found at its place**, and nothing else. -/
theorem Amends.located_eq {x : Place} (h : Amends t x document document') :
    located t document' = (located t document).filter fun p => place p ≠ x := by
  rw [located, located, List.filter_flatMap]
  refine List.flatMap_congr fun y hy => ?_
  rw [mem_places_iff] at hy
  by_cases hne : y = x
  · subst hne
    obtain ⟨v, hv, hcomplies⟩ := h.complies
    have hnone : spot document' y = [] := by
      rw [spot, hv, deviationsAt, deviationsOf_eq_nil_iff.mpr hcomplies, List.map_nil]
    rw [filter_spot_self, hnone]
  · rw [filter_spot_of_ne document hne]
    exact h.edited.spot_eq (Place.parts h.listed hy (Ne.symm hne))

theorem Amended.located_eq {xs : List Place} (h : Amended t xs document document') :
    located t document' = (located t document).filter fun p => place p ∉ xs := by
  induction h with
  | nil => simp
  | @cons x xs document document' document'' hstep _ ih =>
    rw [ih, hstep.located_eq, List.filter_filter]
    refine List.filter_congr fun p _ => ?_
    simp [Bool.and_comm]

/-- What is found at one place stands together. -/
theorem exists_located_eq {x : Place} (hx : x.2 ∈ t.entries) (document : Toml.Value) :
    ∃ before after, located t document = before ++ spot document x ++ after ∧
      ∀ p ∈ before ++ after, place p ≠ x := by
  obtain ⟨xs, ys, hplaces⟩ := List.append_of_mem (mem_places_iff.mpr hx)
  have hnodup := nodup_places t
  rw [hplaces, List.nodup_middle, List.nodup_cons] at hnodup
  refine ⟨xs.flatMap (spot document), ys.flatMap (spot document), ?_, ?_⟩
  · rw [located, hplaces, List.flatMap_append, List.flatMap_cons, List.append_assoc]
  · intro p hp heq
    rw [← List.flatMap_append, List.mem_flatMap] at hp
    obtain ⟨y, hy, hp⟩ := hp
    rw [place_of_mem_spot hp] at heq
    exact hnodup.1 (heq ▸ hy)

theorem length_spot_le (document : Toml.Value) (x : Place) : (spot document x).length ≤ 2 := by
  rw [spot, List.length_map]
  rcases at? document x.keys with - | v
  · exact Nat.zero_le 2
  · have hlength := (map_field_deviationsOf_sublist x.2 v).length_le
    rw [List.length_map] at hlength
    exact hlength

/-! ### Changes that are not looked at -/

/-- The end of a path that the check does not look at: a key at the top or in the
workspace that leads to no section, a name in a section that the table does not
have, or a field of a dependency that is neither of the two. -/
inductive Unchecked (t : Expectations) : List String → Prop
  | top {k : String} :
      k ∉ ["dependencies", "dev-dependencies", "build-dependencies", "workspace"] →
      Unchecked t [k]
  | workspace {k : String} : k ≠ "dependencies" → Unchecked t ["workspace", k]
  | name (s : Section) {n : String} : n ∉ t.entries.map Expectation.name →
      Unchecked t (s.keys ++ [n])
  | field (s : Section) (n : String) {f : String} : f ≠ "version" → f ≠ "path" →
      Unchecked t (s.keys ++ [n] ++ [f])

/-- Other fields of a table make no difference to its deviations. -/
theorem deviationsOf_table_congr {e : Expectation} {f : String}
    {gs gs' : List (String × Toml.Value)} (h : AgreeBut f gs gs') (hversion : f ≠ "version")
    (hpath : f ≠ "path") : deviationsOf e (.table gs') = deviationsOf e (.table gs) := by
  have hkey : ∀ field : Field, gs'.lookup field.key = gs.lookup field.key := by
    intro field
    cases field with
    | version => exact h _ hversion.symm
    | path => exact h _ hpath.symm
  simp only [deviationsOf, hkey]

theorem Unchecked.spot_eq {path : List String} (h : Unchecked t path)
    (hedit : Edited path document document') {x : Place} (hx : x.2 ∈ t.entries) :
    spot document' x = spot document x := by
  obtain ⟨s, e⟩ := x
  cases h with
  | @top k hk =>
    simp only [List.mem_cons, List.not_mem_nil, or_false, not_or] at hk
    obtain ⟨hdependencies, hdev, hbuild, hworkspace⟩ := hk
    apply hedit.spot_eq
    cases s with
    | dependencies => exact .here _ _ hdependencies
    | devDependencies => exact .here _ _ hdev
    | buildDependencies => exact .here _ _ hbuild
    | workspaceDependencies => exact .here _ _ hworkspace
  | @workspace k hk =>
    apply hedit.spot_eq
    cases s with
    | workspaceDependencies => exact .inside (.here _ _ hk)
    | _ => exact .here _ _ (by decide)
  | @name s' n hn =>
    apply hedit.spot_eq
    by_cases hs : s' = s
    · subst hs
      have hne : n ≠ e.name := fun heq => hn (heq ▸ List.mem_map_of_mem hx)
      exact .append_left _ (.here [] [] hne)
    · exact Section.parts hs _ _
  | @field s' n f hversion hpath =>
    by_cases hplace : s'.keys ++ [n] = Place.keys (s, e)
    · -- below the place: both have a table there, with the same two fields
      obtain ⟨gs, gs', hgs, hgs', hagree⟩ := hedit.tables
      rw [hplace] at hgs hgs'
      rw [spot, spot, hgs, hgs', deviationsAt, deviationsAt,
        deviationsOf_table_congr hagree hversion hpath]
    · apply hedit.spot_eq
      rw [List.append_assoc]
      by_cases hs : s' = s
      · subst hs
        have hne : n ≠ e.name := fun heq => hplace (by rw [heq]; rfl)
        exact .append_left _ (.here [f] [] hne)
      · exact Section.parts hs _ _

/-- **A change that is not looked at changes nothing that is found.** -/
theorem Unchecked.located_eq {path : List String} (h : Unchecked t path)
    (hedit : Edited path document document') : located t document' = located t document :=
  List.flatMap_congr fun _ hx => h.spot_eq hedit (mem_places_iff.mp hx)

/-! ### The issues -/

/-- **Changes of a manifest and its issues.**  A value that complies, put at a place,
takes away the issues of that place, which are at most two and stand together, and
leaves all others in their order.  If that is done at every place where something
stands, no issue is left.  A change that the check does not look at leaves the
issues as they are. -/
theorem issues_local (t : Expectations) (label : String) (document : Toml.Value) :
    (∀ (s : Section) (e : Expectation) (document' : Toml.Value),
      Amends t (s, e) document document' →
      ∃ before own after : List (Section × Deviation),
        Enumerates t document (before ++ own ++ after) ∧
        Enumerates t document' (before ++ after) ∧
        issues t label document = (before ++ own ++ after).map (fun p => p.2.line label) ∧
        issues t label document' = (before ++ after).map (fun p => p.2.line label) ∧
        own.length ≤ 2 ∧
        (∀ p ∈ own, p.1 = s ∧ p.2.expectation = e) ∧
        ∀ p ∈ before ++ after, ¬ (p.1 = s ∧ p.2.expectation = e)) ∧
    (∀ (xs : List Place) (document' : Toml.Value), Amended t xs document document' →
      (∀ (s : Section) (e : Expectation) (fs : List (String × Toml.Value)) (v : Toml.Value),
        e ∈ t.entries → s.IsTable document fs → fs.lookup e.name = some v → (s, e) ∈ xs) →
      issues t label document' = []) ∧
    ∀ (path : List String) (document' : Toml.Value), Unchecked t path →
      Edited path document document' → issues t label document' = issues t label document := by
  refine ⟨fun s e document' h => ?_, fun xs document' h hall => ?_, fun path document' h hedit => ?_⟩
  · obtain ⟨before, after, hlocated, hothers⟩ := exists_located_eq h.listed document
    have hown : ∀ p ∈ spot document (s, e), place p = (s, e) := fun p => place_of_mem_spot
    -- without those of the place, all others are left
    have hlocated' : located t document' = before ++ after := by
      rw [h.located_eq, hlocated, List.filter_append, List.filter_append, filter_spot_self,
        List.append_nil, ← List.filter_append, List.filter_eq_self]
      intro p hp
      simp [hothers p hp]
    refine ⟨before, spot document (s, e), after, ?_, ?_, ?_, ?_, length_spot_le document _, ?_, ?_⟩
    · exact hlocated ▸ located_enumerates t document
    · exact hlocated' ▸ located_enumerates t document'
    · rw [issues_eq, hlocated]
    · rw [issues_eq, hlocated']
    · exact fun p hp => Prod.mk.inj (hown p hp)
    · exact fun p hp hplace => hothers p hp (Prod.ext hplace.1 hplace.2)
  · rw [issues_eq, h.located_eq, List.map_eq_nil_iff, List.filter_eq_nil_iff]
    intro p hp
    obtain ⟨x, hx, hp⟩ := List.mem_flatMap.mp hp
    obtain ⟨fs, v, hfs, hv, -⟩ := mem_spot_iff.mp hp
    rw [place_of_mem_spot hp]
    simp [hall x.1 x.2 fs v (mem_places_iff.mp hx) hfs hv]
  · rw [issues_eq, issues_eq, h.located_eq hedit]

/-- A dependency that is declared in two sections, and what else the workspace
holds. -/
def declaredTwice (v w : Toml.Value) (others : List (String × Toml.Value)) : Toml.Value :=
  .table [("dependencies", .table [("a", v)]),
    ("workspace", .table (("dependencies", .table [("a", w)]) :: others))]

/-- The table that the dependency is in. -/
def pinnedOnce : Expectations :=
  ⟨[⟨"a", "1", "./a"⟩], by decide⟩

/-- A workspace with members. -/
def members : List (String × Toml.Value) :=
  [("members", .array [])]

/-- A table with what the table of expectations requires, and more. -/
def compliant : Toml.Value :=
  .table [("version", .string "1"), ("path", .string "./a"), ("optional", .boolean true)]

/-- A table that complies takes the two issues of its section away, a version in
the other section then the last one; without its members the workspace has the
same issues. -/
theorem declaredTwice_issues_local :
    (∃ before own after : List (Section × Deviation),
      issues pinnedOnce "Cargo.toml" (declaredTwice (.table []) (.string "0") members) =
        (before ++ own ++ after).map (fun p => p.2.line "Cargo.toml") ∧
      issues pinnedOnce "Cargo.toml" (declaredTwice compliant (.string "0") members) =
        (before ++ after).map (fun p => p.2.line "Cargo.toml") ∧
      own.length ≤ 2) ∧
    issues pinnedOnce "Cargo.toml" (declaredTwice compliant (.string "1") members) = [] ∧
    issues pinnedOnce "Cargo.toml" (declaredTwice (.table []) (.string "0") []) =
      issues pinnedOnce "Cargo.toml" (declaredTwice (.table []) (.string "0") members) := by
  obtain ⟨hone, hall, hother⟩ := issues_local pinnedOnce "Cargo.toml"
    (declaredTwice (.table []) (.string "0") members)
  have hfirst : Amends pinnedOnce (.dependencies, ⟨"a", "1", "./a"⟩)
      (declaredTwice (.table []) (.string "0") members)
      (declaredTwice compliant (.string "0") members) :=
    { listed := List.mem_singleton_self _
      edited := .inside (agreeBut_replace [] _ _ _ _) rfl rfl (.here (agreeBut_replace [] [] _ _ _))
      complies := ⟨compliant, rfl, .fields rfl rfl⟩ }
  have hsecond : Amends pinnedOnce (.workspaceDependencies, ⟨"a", "1", "./a"⟩)
      (declaredTwice compliant (.string "0") members)
      (declaredTwice compliant (.string "1") members) :=
    { listed := List.mem_singleton_self _
      edited := .inside (agreeBut_replace [_] [] _ _ _) rfl rfl
        (.inside (agreeBut_replace [] _ _ _ _) rfl rfl (.here (agreeBut_replace [] [] _ _ _)))
      complies := ⟨_, rfl, .version⟩ }
  have hmembers : Edited ["workspace", "members"]
      (declaredTwice (.table []) (.string "0") members)
      (declaredTwice (.table []) (.string "0") []) :=
    .inside (agreeBut_replace [_] [] _ _ _) rfl rfl (.here (agreeBut_insert [_] [] _ _).symm)
  refine ⟨?_, ?_, ?_⟩
  · obtain ⟨before, own, after, -, -, hbefore, hafter, hlength, -⟩ := hone _ _ _ hfirst
    exact ⟨before, own, after, hbefore, hafter, hlength⟩
  · refine hall _ _ (.cons hfirst (.cons hsecond .nil)) ?_
    intro s e fs v he hs hv
    rw [List.mem_singleton.mp he]
    cases hs with
    | dependencies => exact List.mem_cons_self
    | workspaceDependencies => exact List.mem_cons_of_mem _ List.mem_cons_self
    | devDependencies h => cases h
    | buildDependencies h => cases h
  · exact hother _ _ (.workspace (by decide)) hmembers

end WorkspaceAudit.Manifest

/-
WorkspaceAudit/Proofs/Tree/Along.lean

Paths along names.

A path that is continued along names ends in the names as they are written,
with a slash before each, the first one apart where the path needs none.
Names hold no slash, so what was written can be told apart again: different
names give different paths (`along_injective`), and none gives the path that
was continued (`along_ne`).
-/
import WorkspaceAudit.Proofs.Tree.Order

namespace WorkspaceAudit

/-! ### Names -/

theorem Name.bytes_ne_nil (n : Name) : n.bytes ≠ [] := by
  intro h
  have hv := n.valid
  rw [h] at hv
  cases hv

theorem Name.slash_not_mem (n : Name) : Path.slash ∉ n.bytes := by
  have hv := n.valid
  simp only [isName, Bool.and_eq_true, Bool.not_eq_true', List.contains_eq_mem,
    decide_eq_false_iff_not] at hv
  exact hv.1.1.2

theorem Name.isAbsolute_eq (n : Name) : Path.isAbsolute n.bytes = false := by
  rcases h : n.bytes with - | ⟨b, bs⟩
  · rfl
  · have hb : b ≠ Path.slash := by
      rintro rfl
      exact n.slash_not_mem (h ▸ List.mem_cons_self)
    simp [Path.isAbsolute, hb]

theorem Name.endsInSlash_append (p : Path) (n : Name) :
    Path.endsInSlash (p ++ n.bytes) = false := by
  rw [Path.endsInSlash, List.getLast?_append]
  rcases h : n.bytes.getLast? with - | b
  · exact absurd (List.getLast?_eq_none_iff.mp h) n.bytes_ne_nil
  · have hb : b ≠ Path.slash := by
      rintro rfl
      exact n.slash_not_mem (List.mem_of_getLast? h)
    simp [hb]

namespace Path

/-! ### Names as they are written -/

/-- Names with a slash before each. -/
def spelled (names : List Name) : Bytes :=
  names.flatMap fun n => slash :: n.bytes

theorem spelled_cons (n : Name) (names : List Name) :
    spelled (n :: names) = slash :: (n.bytes ++ spelled names) := by
  rw [spelled, List.flatMap_cons, List.cons_append]
  rfl

theorem takeWhile_spelled (names : List Name) :
    (spelled names).takeWhile (· != slash) = [] := by
  cases names with
  | nil => rfl
  | cons n names =>
    rw [spelled_cons]
    rfl

theorem takeWhile_name (n : Name) (names : List Name) :
    (n.bytes ++ spelled names).takeWhile (· != slash) = n.bytes := by
  rw [List.takeWhile_append_of_pos, takeWhile_spelled, List.append_nil]
  intro b hb
  apply bne_iff_ne.mpr
  rintro rfl
  exact n.slash_not_mem hb

/-- What is written tells the names. -/
theorem spelled_injective {as bs : List Name} (h : spelled as = spelled bs) : as = bs := by
  induction as generalizing bs with
  | nil =>
    cases bs with
    | nil => rfl
    | cons m bs =>
      rw [spelled_cons] at h
      cases h
  | cons n as ih =>
    cases bs with
    | nil =>
      rw [spelled_cons] at h
      cases h
    | cons m bs =>
      rw [spelled_cons, spelled_cons, List.cons.injEq] at h
      -- both read off as what stands before the next slash
      have hbytes : n.bytes = m.bytes := by
        rw [← takeWhile_name n as, h.2, takeWhile_name]
      have hrest : spelled as = spelled bs := by
        have h2 := h.2
        rw [hbytes] at h2
        exact List.append_cancel_left h2
      rw [Name.bytes_injective hbytes, ih hrest]

/-! ### Continuing a path -/

/-- A slash, where a path needs one before a name. -/
def joint (p : Path) : Bytes :=
  if p.isEmpty || p.endsInSlash then [] else [slash]

theorem join_name (p : Path) (n : Name) : p.join n.bytes = p ++ joint p ++ n.bytes := by
  rw [join, joint, n.isAbsolute_eq]
  split
  · next h => cases h
  · split
    · rw [List.append_nil]
    · rw [List.append_assoc, List.singleton_append]

theorem joint_join (p : Path) (n : Name) : joint (p.join n.bytes) = [slash] := by
  rw [joint, join_name, n.endsInSlash_append]
  rcases h : n.bytes with - | ⟨b, bs⟩
  · exact absurd h n.bytes_ne_nil
  · simp

theorem along_cons (p : Path) (n : Name) (names : List Name) :
    p.along (n :: names) = p ++ joint p ++ n.bytes ++ spelled names := by
  -- each name is joined to a path that ends in the name before
  induction names generalizing p n with
  | nil =>
    rw [along, List.foldl_cons, List.foldl_nil, join_name, spelled, List.flatMap_nil,
      List.append_nil]
  | cons m names ih =>
    have hstep : p.along (n :: m :: names) = (p.join n.bytes).along (m :: names) := rfl
    rw [hstep, ih, joint_join, join_name, spelled_cons]
    simp only [List.append_assoc, List.cons_append, List.nil_append]

/-- Different names give different paths. -/
theorem along_injective {p : Path} {as bs : List Name} (has : as ≠ []) (hbs : bs ≠ [])
    (h : p.along as = p.along bs) : as = bs := by
  rcases as with - | ⟨n, as⟩
  · exact absurd rfl has
  rcases bs with - | ⟨m, bs⟩
  · exact absurd rfl hbs
  rw [along_cons, along_cons, List.append_assoc (p ++ joint p), List.append_assoc (p ++ joint p)]
    at h
  have hwritten := List.append_cancel_left h
  apply spelled_injective
  rw [spelled_cons, spelled_cons, hwritten]

/-- A path that is continued is another path. -/
theorem along_ne {p : Path} {names : List Name} (h : names ≠ []) : p.along names ≠ p := by
  rcases names with - | ⟨n, names⟩
  · exact absurd rfl h
  intro heq
  have hlen := congrArg List.length heq
  have hn := List.length_pos_iff.mpr n.bytes_ne_nil
  rw [along_cons] at hlen
  simp only [List.length_append] at hlen
  omega

/-! ### The steps of a path that is continued -/

theorem pieces_ne_nil (p : Path) : pieces p ≠ [] := by
  cases p with
  | nil => exact List.cons_ne_nil _ _
  | cons b p =>
    rw [pieces]
    split
    · exact List.cons_ne_nil _ _
    · split <;> exact List.cons_ne_nil _ _

theorem pieces_of_not_mem {p : Path} (h : slash ∉ p) : pieces p = [p] := by
  induction p with
  | nil => rfl
  | cons b p ih =>
    obtain ⟨hb, hp⟩ := not_or.mp (mt List.mem_cons.mpr h)
    rw [pieces, if_neg (Ne.symm hb), ih hp]

/-- A slash separates the pieces on both sides of it. -/
theorem pieces_append_slash (p q : Path) : pieces (p ++ slash :: q) = pieces p ++ pieces q := by
  induction p with
  | nil => rfl
  | cons b p ih =>
    rw [List.cons_append, pieces, pieces, ih]
    by_cases hb : b = slash
    · rw [if_pos hb, if_pos hb, List.cons_append]
    · rw [if_neg hb, if_neg hb]
      rcases h : pieces p with - | ⟨piece, rest⟩
      · exact absurd h (pieces_ne_nil p)
      · rfl

theorem pieces_spelled (n : Name) (names : List Name) :
    pieces (n.bytes ++ spelled names) = (n :: names).map Name.bytes := by
  induction names generalizing n with
  | nil => rw [spelled, List.flatMap_nil, List.append_nil, pieces_of_not_mem n.slash_not_mem]; rfl
  | cons m names ih =>
    rw [spelled_cons, pieces_append_slash, pieces_of_not_mem n.slash_not_mem, ih]
    rfl

end Path

theorem Step.ofPiece?_name (n : Name) : Step.ofPiece? n.bytes = some (.down n) := by
  have hv := n.valid
  simp only [isName, Bool.and_eq_true, Bool.not_eq_true', bne_iff_ne] at hv
  rw [Step.ofPiece?, hv.1.1.1.1.1, if_neg (by simp), if_neg hv.1.1.1.1.2, if_neg hv.1.1.1.2,
    Name.ofBytes?, dif_pos n.valid]

theorem Step.filterMap_names (names : List Name) :
    (names.map Name.bytes).filterMap Step.ofPiece? = names.map .down := by
  rw [List.filterMap_map]
  have hdown : Step.ofPiece? ∘ Name.bytes = fun n => some (.down n) := by
    funext n
    exact Step.ofPiece?_name n
  rw [hdown, List.filterMap_eq_map']

namespace Path

/-- The steps of a path without the slash at its end. -/
def plainWalk (p : Path) : List Step :=
  (pieces p).filterMap Step.ofPiece?

theorem walk_eq (p : Path) :
    p.walk = plainWalk p ++ if p.endsInSlash then [.slash] else [] :=
  rfl

/-- What a path is continued by stands after its pieces, the empty one left out that
comes after a slash at its end. -/
theorem pieces_joint {p : Path} (hp : p ≠ []) (q : Path) :
    ∃ front, (pieces p = front ∨ pieces p = front ++ [[]]) ∧
      pieces (p ++ joint p ++ q) = front ++ pieces q := by
  rw [joint]
  by_cases h : p.endsInSlash = true
  · -- the slash at the end is the one that separates
    obtain ⟨front, last, rfl⟩ := (List.eq_nil_or_concat p).resolve_left hp
    rw [List.concat_eq_append] at h ⊢
    obtain rfl : last = slash := by simpa [endsInSlash] using h
    rw [h, Bool.or_true, if_pos rfl, List.append_nil, List.append_assoc, List.singleton_append]
    exact ⟨pieces front, .inr (pieces_append_slash front []), pieces_append_slash front q⟩
  · have hempty : p.isEmpty = false := by simpa using hp
    rw [hempty, Bool.eq_false_iff.mpr h, Bool.or_false, if_neg (by simp), List.append_assoc,
      List.singleton_append]
    exact ⟨pieces p, .inl rfl, pieces_append_slash p q⟩

theorem plainWalk_joint {p : Path} (hp : p ≠ []) (q : Path) :
    plainWalk (p ++ joint p ++ q) = plainWalk p ++ plainWalk q := by
  obtain ⟨front, hfront, hpieces⟩ := pieces_joint hp q
  rw [plainWalk, plainWalk, plainWalk, hpieces, List.filterMap_append]
  rcases hfront with hfront | hfront
  · rw [hfront]
  · -- no step is taken by an empty piece
    rw [hfront, List.filterMap_append]
    simp [Step.ofPiece?]

theorem endsInSlash_along {p : Path} {names : List Name} (h : names ≠ []) :
    (p.along names).endsInSlash = false := by
  obtain ⟨front, last, rfl⟩ := (List.eq_nil_or_concat names).resolve_left h
  rw [List.concat_eq_append, along, List.foldl_append, List.foldl_cons, List.foldl_nil, join_name,
    Name.endsInSlash_append]

/-- **A path that is continued is walked**, and then the names. -/
theorem walk_along {p : Path} (hp : p ≠ []) {names : List Name} (h : names ≠ []) :
    (p.along names).walk = plainWalk p ++ names.map .down := by
  rw [walk_eq, endsInSlash_along h, if_neg (by simp), List.append_nil]
  rcases names with - | ⟨n, names⟩
  · exact absurd rfl h
  rw [along_cons, List.append_assoc (p ++ joint p), plainWalk_joint hp, plainWalk, plainWalk,
    pieces_spelled, Step.filterMap_names]

theorem isAbsolute_along {p : Path} (hp : p ≠ []) (names : List Name) :
    (p.along names).isAbsolute = p.isAbsolute := by
  rcases names with - | ⟨n, names⟩
  · rfl
  rcases p with - | ⟨b, p⟩
  · exact absurd rfl hp
  rw [along_cons]
  rfl

end Path

end WorkspaceAudit

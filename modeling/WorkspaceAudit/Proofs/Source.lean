/-
WorkspaceAudit/Proofs/Source.lean

What the issues of a source are.

One pass over a text keeps a tally for each pair of delimiters.  What it keeps is
how often the two have occurred in the text so far, whatever the pair, so in the end
the tallies are the counts of the whole text (`tallies_eq`).

An issue is the notice of the retired name, which is a part of the text, or of a
pair of delimiters that occurs unequally often (`mem_issues_iff`).  So a text has
none exactly if the retired name is no part of it and each pair occurs equally
often (`issues_eq_nil_iff`).
-/
import WorkspaceAudit.Source

namespace WorkspaceAudit.Source

/-- A part occurs in a text if the text goes on as the part does at some
place. -/
theorem occursIn_iff {part text : List Char} : occursIn part text = true ↔ part <:+: text := by
  induction text with
  | nil => rw [occursIn, List.isEmpty_iff, List.infix_nil]
  | cons c rest ih =>
    rw [occursIn, Bool.or_eq_true, List.isPrefixOf_iff_prefix, ih, List.infix_cons_iff]

/-! ### Tallies -/

variable {d : Delimiters}

/-- What was counted in a text. -/
def Tally.of (text : List Char) (d : Delimiters) : Tally :=
  ⟨text.count d.opening, text.count d.closing⟩

/-- A character is counted as what it is, since no delimiter opens and closes. -/
theorem Tally.count_of (hd : d.opening ≠ d.closing) (text : List Char) (c : Char) :
    (Tally.of text d).count d c = Tally.of (text ++ [c]) d := by
  rw [Tally.count, of, of, List.count_append, List.count_append]
  split
  · next hopening =>
    rw [hopening, List.count_singleton_self, List.count_singleton, if_neg (by simpa using hd)]
    rfl
  split
  · next hclosing =>
    rw [hclosing, List.count_singleton_self, List.count_singleton,
      if_neg (by simpa using hd.symm)]
    rfl
  · next hopening hclosing =>
    rw [List.count_singleton, List.count_singleton, if_neg (by simpa using hopening),
      if_neg (by simpa using hclosing)]
    rfl

/-- One character is counted for all pairs. -/
theorem zipWith_count {ds : List Delimiters} (h : ∀ d ∈ ds, d.opening ≠ d.closing)
    (text : List Char) (c : Char) :
    List.zipWith (fun d t => t.count d c) ds (ds.map (Tally.of text)) =
      ds.map (Tally.of (text ++ [c])) := by
  rw [List.zipWith_map_right, List.zipWith_self]
  exact List.map_congr_left fun d hd => Tally.count_of (h d hd) text c

/-- **The tallies are the counts of the text.** -/
theorem tallies_eq {ds : List Delimiters} (h : ∀ d ∈ ds, d.opening ≠ d.closing)
    (text : List Char) : tallies ds text = ds.map (Tally.of text) := by
  -- on the characters still to come, with those that were counted in front
  have key : ∀ seen text : List Char,
      text.foldl (fun ts c => List.zipWith (fun d t => t.count d c) ds ts)
        (ds.map (Tally.of seen)) = ds.map (Tally.of (seen ++ text)) := by
    intro seen text
    induction text generalizing seen with
    | nil => rw [List.foldl_nil, List.append_nil]
    | cons c text ih =>
      rw [List.foldl_cons, zipWith_count h, ih, List.append_assoc, List.singleton_append]
  exact key [] text

/-- The pairs that are reported are those that occur unequally often. -/
theorem issues_eq (text : String) :
    issues text = (if occursIn retiredName.toList text.toList then [retiredNotice] else []) ++
      (delimiters.filter fun d => text.toList.count d.opening != text.toList.count d.closing).map
        Delimiters.notice := by
  have hpairs : delimiters.zip (delimiters.map (Tally.of text.toList)) =
      delimiters.map fun d => (d, Tally.of text.toList d) := by
    have hzip : (delimiters.map id).zip (delimiters.map (Tally.of text.toList)) = _ :=
      List.zip_map'
    rwa [List.map_id] at hzip
  rw [issues, tallies_eq (by decide), hpairs, List.filter_map, List.map_map]
  rfl

/-! ### Issues -/

/-- An issue of a text is the notice of the retired name or of a pair. -/
theorem mem_issues_iff {text : String} {issue : Issue} :
    issue ∈ issues text ↔
      (retiredName.toList <:+: text.toList ∧ issue = retiredNotice) ∨
        ∃ d ∈ delimiters, text.toList.count d.opening ≠ text.toList.count d.closing ∧
          d.notice = issue := by
  rw [issues_eq, List.mem_append]
  refine or_congr ?_ ?_
  · rw [← occursIn_iff]
    split
    · next h => simp [h]
    · next h => simp [h]
  · simp only [List.mem_map, List.mem_filter, bne_iff_ne, and_assoc]

/-- **A source has no issues** if it does not mention the retired name and its
delimiters occur equally often. -/
theorem issues_eq_nil_iff {text : String} :
    issues text = [] ↔ ¬ "ProgramResult".toList <:+: text.toList ∧
      text.toList.count '{' = text.toList.count '}' ∧
      text.toList.count '(' = text.toList.count ')' ∧
      text.toList.count '[' = text.toList.count ']' := by
  have hnone : issues text = [] ↔ ¬ retiredName.toList <:+: text.toList ∧
      ∀ d ∈ delimiters, text.toList.count d.opening = text.toList.count d.closing := by
    rw [List.eq_nil_iff_forall_not_mem]
    constructor
    · intro h
      constructor
      · intro hname
        exact h retiredNotice (mem_issues_iff.mpr (.inl ⟨hname, rfl⟩))
      · intro d hd
        refine Decidable.byContradiction fun hcount => ?_
        exact h d.notice (mem_issues_iff.mpr (.inr ⟨d, hd, hcount, rfl⟩))
    · rintro ⟨hname, hcount⟩ issue hissue
      rcases mem_issues_iff.mp hissue with ⟨hoccurs, -⟩ | ⟨d, hd, hne, -⟩
      · exact hname hoccurs
      · exact hne (hcount d hd)
  rw [hnone]
  simp [delimiters, retiredName]

end WorkspaceAudit.Source

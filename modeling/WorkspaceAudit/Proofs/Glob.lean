/-
WorkspaceAudit/Proofs/Glob.lean

What a pattern of file names stands for.

`Fits c part` says what one character of a pattern stands for: `*` for any part
without a line feed, `?` for one character that is none, and every other
character for itself alone.  A name matches a pattern if it can be cut into
consecutive parts, one for each character of the pattern (`Cut`).

A matcher must not try one way to cut only: with several runs in a pattern there
may be many.  `covers` tries every length of a run (`afterRun_iff`), so it finds
a cut whenever there is one (`covers_iff_cut`), and matching agrees with it.
-/
import Mathlib.Data.List.Forall2
import WorkspaceAudit.Glob

namespace WorkspaceAudit.Glob

/-! ### Cutting a name -/

/-- `Fits c part`: the character `c` of a pattern can stand for `part`. -/
inductive Fits : Char → List Char → Prop
  | run {part : List Char} : '\n' ∉ part → Fits '*' part
  | one {c : Char} : c ≠ '\n' → Fits '?' [c]
  | itself {c : Char} : c ≠ '*' → c ≠ '?' → Fits c [c]

/-- A text is cut into consecutive parts, one for each character of the
pattern. -/
def Cut (pattern text : List Char) : Prop :=
  ∃ parts : List (List Char), List.Forall₂ Fits pattern parts ∧ parts.flatten = text

theorem fits_run_iff {part : List Char} : Fits '*' part ↔ '\n' ∉ part := by
  constructor
  · intro h
    cases h with
    | run h => exact h
    | itself h => exact absurd rfl h
  · exact .run

theorem fits_one_iff {part : List Char} : Fits '?' part ↔ ∃ c, c ≠ '\n' ∧ part = [c] := by
  constructor
  · intro h
    cases h with
    | one h => exact ⟨_, h, rfl⟩
    | itself _ h => exact absurd rfl h
  · rintro ⟨c, hc, rfl⟩
    exact .one hc

theorem fits_itself_iff {c : Char} {part : List Char} (hrun : c ≠ '*') (hone : c ≠ '?') :
    Fits c part ↔ part = [c] := by
  constructor
  · intro h
    cases h with
    | run => exact absurd rfl hrun
    | one => exact absurd rfl hone
    | itself => rfl
  · rintro rfl
    exact .itself hrun hone

theorem cut_nil_iff {text : List Char} : Cut [] text ↔ text = [] := by
  constructor
  · rintro ⟨parts, hfits, rfl⟩
    cases hfits
    rfl
  · rintro rfl
    exact ⟨[], .nil, rfl⟩

/-- The first character of a pattern takes the first part. -/
theorem cut_cons_iff {c : Char} {pattern text : List Char} :
    Cut (c :: pattern) text ↔
      ∃ part rest, part ++ rest = text ∧ Fits c part ∧ Cut pattern rest := by
  constructor
  · rintro ⟨parts, hfits, rfl⟩
    cases hfits with
    | @cons _ part _ parts hpart hparts =>
      exact ⟨part, parts.flatten, rfl, hpart, parts, hparts, rfl⟩
  · rintro ⟨part, rest, rfl, hpart, parts, hparts, rfl⟩
    exact ⟨part :: parts, .cons hpart hparts, rfl⟩

theorem cut_run_iff {pattern text : List Char} :
    Cut ('*' :: pattern) text ↔
      ∃ part rest, part ++ rest = text ∧ '\n' ∉ part ∧ Cut pattern rest := by
  simp only [cut_cons_iff, fits_run_iff]

theorem cut_one_iff {pattern text : List Char} :
    Cut ('?' :: pattern) text ↔ ∃ c rest, c :: rest = text ∧ c ≠ '\n' ∧ Cut pattern rest := by
  simp only [cut_cons_iff, fits_one_iff]
  constructor
  · rintro ⟨part, rest, rfl, ⟨c, hc, rfl⟩, hrest⟩
    exact ⟨c, rest, rfl, hc, hrest⟩
  · rintro ⟨c, rest, rfl, hc, hrest⟩
    exact ⟨[c], rest, rfl, ⟨c, hc, rfl⟩, hrest⟩

theorem cut_itself_iff {c : Char} {pattern text : List Char} (hrun : c ≠ '*') (hone : c ≠ '?') :
    Cut (c :: pattern) text ↔ ∃ rest, c :: rest = text ∧ Cut pattern rest := by
  simp only [cut_cons_iff, fits_itself_iff hrun hone]
  constructor
  · rintro ⟨part, rest, rfl, rfl, hrest⟩
    exact ⟨rest, rfl, hrest⟩
  · rintro ⟨rest, rfl, hrest⟩
    exact ⟨[c], rest, rfl, rfl, hrest⟩

/-! ### The matcher finds every cut -/

theorem isWild_iff {c : Char} : isWild c = true ↔ c ≠ '\n' := by
  rw [isWild, bne_iff_ne]

/-- A run is tried with every length up to the first line feed. -/
theorem afterRun_iff (covered : List Char → Bool) (text : List Char) :
    afterRun covered text = true ↔
      ∃ part rest, part ++ rest = text ∧ '\n' ∉ part ∧ covered rest = true := by
  induction text with
  | nil =>
    rw [afterRun]
    constructor
    · intro h
      exact ⟨[], [], rfl, List.not_mem_nil, h⟩
    · rintro ⟨part, rest, heq, -, h⟩
      rw [(List.append_eq_nil_iff.mp heq).2] at h
      exact h
  | cons c text ih =>
    rw [afterRun, Bool.or_eq_true, Bool.and_eq_true, ih, isWild_iff]
    constructor
    · rintro (h | ⟨hc, part, rest, rfl, hpart, h⟩)
      · exact ⟨[], c :: text, rfl, List.not_mem_nil, h⟩
      · refine ⟨c :: part, rest, rfl, ?_, h⟩
        rw [List.mem_cons, not_or]
        exact ⟨hc.symm, hpart⟩
    · -- the run is empty or takes the first character
      rintro ⟨part, rest, heq, hpart, h⟩
      cases part with
      | nil =>
        rw [List.nil_append] at heq
        subst heq
        exact .inl h
      | cons d part =>
        rw [List.cons_append, List.cons.injEq] at heq
        obtain ⟨rfl, rfl⟩ := heq
        rw [List.mem_cons, not_or] at hpart
        exact .inr ⟨Ne.symm hpart.1, part, rest, rfl, hpart.2, h⟩

/-- The pieces of a pattern cover a text exactly if it can be cut. -/
theorem covers_iff_cut (pattern text : List Char) :
    covers (pattern.map Piece.ofChar) text = true ↔ Cut pattern text := by
  induction pattern generalizing text with
  | nil => rw [List.map_nil, covers, List.isEmpty_iff, cut_nil_iff]
  | cons c pattern ih =>
    rw [List.map_cons]
    by_cases hrun : c = '*'
    · subst hrun
      have hpiece : Piece.ofChar '*' = .run := rfl
      rw [hpiece, covers, afterRun_iff, cut_run_iff]
      simp only [ih]
    · by_cases hone : c = '?'
      · subst hone
        have hpiece : Piece.ofChar '?' = .one := rfl
        rw [hpiece, cut_one_iff]
        cases text with
        | nil => simp [covers]
        | cons d text => simp [covers, isWild_iff, ih]
      · have hpiece : Piece.ofChar c = .exactly c := by
          rw [Piece.ofChar, if_neg hrun, if_neg hone]
        rw [hpiece, cut_itself_iff hrun hone]
        cases text with
        | nil => simp [covers]
        | cons d text =>
          rw [covers, Bool.and_eq_true, beq_iff_eq, ih]
          constructor
          · rintro ⟨rfl, hcut⟩
            exact ⟨text, rfl, hcut⟩
          · rintro ⟨rest, heq, hcut⟩
            cases heq
            exact ⟨rfl, hcut⟩

/-- Without wildcards there is one cut only, of the pattern itself. -/
theorem cut_iff_of_literal {pattern text : List Char} (h : ∀ c ∈ pattern, c ≠ '*' ∧ c ≠ '?') :
    Cut pattern text ↔ text = pattern := by
  induction pattern generalizing text with
  | nil => exact cut_nil_iff
  | cons c pattern ih =>
    obtain ⟨hrun, hone⟩ := h c List.mem_cons_self
    have hrest : ∀ {rest}, Cut pattern rest ↔ rest = pattern :=
      ih fun d hd => h d (List.mem_cons_of_mem c hd)
    rw [cut_itself_iff hrun hone]
    constructor
    · rintro ⟨rest, rfl, hcut⟩
      rw [hrest.mp hcut]
    · rintro rfl
      exact ⟨pattern, rfl, hrest.mpr rfl⟩

/-! ### Names -/

theorem matchesName_iff (g : Glob) (name : String) :
    g.matchesName name = true ↔ Cut g.text.toList name.toList := by
  rw [matchesName_eq, pieces, covers_iff_cut]

/-- A pattern without wildcards matches itself alone. -/
theorem matchesName_iff_of_literal {g : Glob} (h : ∀ c ∈ g.text.toList, c ≠ '*' ∧ c ≠ '?')
    {name : String} : g.matchesName name = true ↔ name = g.text := by
  rw [matchesName_iff, cut_iff_of_literal h, String.toList_inj]

theorem text_of_ofString {text : String} {g : Glob} (h : ofString text = .ok g) :
    g.text = text := by
  unfold ofString at h
  dsimp only at h
  split at h
  · cases h
    rfl
  · cases h

/-- **A name matches an accepted pattern exactly if it can be cut** into
consecutive parts, one for each character of the pattern, so that `*` takes any
part without a line feed, `?` one character that is no line feed and every other
character itself.  A pattern with neither `*` nor `?` matches only itself,
whatever its characters mean elsewhere. -/
theorem ofString_matchesName_iff {text : String} {g : Glob} (h : ofString text = .ok g)
    (name : String) :
    (g.matchesName name = true ↔
      ∃ parts : List (List Char),
        List.Forall₂ Fits text.toList parts ∧ parts.flatten = name.toList) ∧
    ((∀ c ∈ text.toList, c ≠ '*' ∧ c ≠ '?') → (g.matchesName name = true ↔ name = text)) := by
  obtain rfl := text_of_ofString h
  exact ⟨matchesName_iff g name, fun hliteral => matchesName_iff_of_literal hliteral⟩

/-- The second run takes the dot that the first could have taken, and brackets
stand for themselves. -/
theorem brackets_matchesName :
    ofString "*.[?]*" = .ok ⟨"*.[?]*"⟩ ∧
      (⟨"*.[?]*"⟩ : Glob).matchesName "a.b.[é].rs" = true ∧
      List.Forall₂ Fits "*.[?]*".toList
        [['a', '.', 'b'], ['.'], ['['], ['é'], [']'], ['.', 'r', 's']] := by
  have hfits : List.Forall₂ Fits "*.[?]*".toList
      [['a', '.', 'b'], ['.'], ['['], ['é'], [']'], ['.', 'r', 's']] := by
    refine .cons (.run (by decide)) (.cons (.itself (by decide) (by decide)) ?_)
    refine .cons (.itself (by decide) (by decide)) (.cons (.one (by decide)) ?_)
    exact .cons (.itself (by decide) (by decide)) (.cons (.run (by decide)) .nil)
  have haccepted : ofString "*.[?]*" = .ok ⟨"*.[?]*"⟩ := rfl
  exact ⟨haccepted, (ofString_matchesName_iff haccepted "a.b.[é].rs").1.mpr ⟨_, hfits, rfl⟩, hfits⟩

end WorkspaceAudit.Glob

/-
WorkspaceAudit/Proofs/Text/Lines.lean

The line of a place is the line that the place is on.

A text is split at its line feeds into pieces, and a place belongs to the piece
that it stands in; the place of a line feed still belongs to the piece before it
(`OnLine`).  Every place between two characters is on one line and no other
(`onLine_iff`), and that line is the one that `lineAt` answers.  Where no character
begins or ends, it answers the first line (`lineFrom_of_not_place`).
-/
import Mathlib.Data.List.Infix
import WorkspaceAudit.Proofs.Text.Encoded
import WorkspaceAudit.Text.Lines

namespace WorkspaceAudit.Text

variable {text before after : List Char} {line offset : Nat}

/-! ### Places -/

@[simp] theorem byteSize_nil : byteSize [] = 0 :=
  rfl

@[simp] theorem byteSize_cons (c : Char) (cs : List Char) :
    byteSize (c :: cs) = c.utf8Size + byteSize cs :=
  rfl

@[simp] theorem byteSize_append (before after : List Char) :
    byteSize (before ++ after) = byteSize before + byteSize after := by
  induction before with
  | nil => simp
  | cons c cs ih => simp [ih, Nat.add_assoc]

/-- The size of a text is the number of bytes that encode it. -/
theorem byteSize_eq_length (s : String) : byteSize s.toList = (Bytes.ofText s).length := by
  rw [Bytes.ofText_eq]
  induction s.toList with
  | nil => rfl
  | cons c cs ih =>
    rw [byteSize_cons, ih, List.flatMap_cons, List.length_append,
      String.length_utf8EncodeChar]

/-- A place between two characters of a text, or at one of its ends. -/
def IsPlace (text : List Char) (offset : Nat) : Prop :=
  ∃ before after, text = before ++ after ∧ byteSize before = offset

theorem isPlace_iff : IsPlace text offset ↔ ∃ before ∈ text.inits, byteSize before = offset := by
  constructor
  · rintro ⟨before, after, rfl, hsize⟩
    exact ⟨before, (List.mem_inits _ _).mpr (List.prefix_append before after), hsize⟩
  · rintro ⟨before, hbefore, hsize⟩
    obtain ⟨after, rfl⟩ := (List.mem_inits _ _).mp hbefore
    exact ⟨before, after, rfl, hsize⟩

instance (text : List Char) (offset : Nat) : Decidable (IsPlace text offset) :=
  decidable_of_iff _ isPlace_iff.symm

/-- At a place the bytes of a text part into those of two texts. -/
theorem isPlace_toList_iff {s : String} :
    IsPlace s.toList offset ↔
      ∃ before after, s = before ++ after ∧ (Bytes.ofText before).length = offset := by
  constructor
  · rintro ⟨before, after, htext, hsize⟩
    refine ⟨.ofList before, .ofList after, ?_, ?_⟩
    · rw [← String.ofList_append, ← htext, String.ofList_toList]
    · rw [← byteSize_eq_length, String.toList_ofList, hsize]
  · rintro ⟨before, after, rfl, hsize⟩
    exact ⟨before.toList, after.toList, String.toList_append, byteSize_eq_length before ▸ hsize⟩

/-- The line feeds before a place are counted, whatever else stands there. -/
theorem lineFrom_append (line : Nat) (before after : List Char) :
    lineFrom line (byteSize before) (before ++ after) = line + before.count '\n' := by
  induction before generalizing line with
  | nil => rw [byteSize_nil, lineFrom, List.count_nil, Nat.add_zero]
  | cons c cs ih =>
    obtain ⟨n, hn⟩ : ∃ n, c.utf8Size + byteSize cs = n + 1 :=
      Nat.exists_eq_add_one_of_ne_zero (Nat.ne_of_gt (Nat.add_pos_left c.utf8Size_pos _))
    have hle : c.utf8Size ≤ n + 1 := hn ▸ Nat.le_add_right _ _
    have hrest : n + 1 - c.utf8Size = byteSize cs := by omega
    rw [byteSize_cons, hn, List.cons_append, lineFrom, if_pos hle, hrest, ih, List.count_cons]
    by_cases hc : c = '\n'
    · simp only [hc, if_true, beq_self_eq_true]
      omega
    · simp only [hc, if_false, beq_iff_eq, Nat.add_zero]

/-- Past the end of a text, and within a character, there is only the first line. -/
theorem lineFrom_of_not_place (h : ¬ IsPlace text offset) : lineFrom line offset text = 1 := by
  induction text generalizing line offset with
  | nil =>
    cases offset with
    | zero => exact absurd ⟨[], [], rfl, rfl⟩ h
    | succ n => rfl
  | cons c cs ih =>
    cases offset with
    | zero => exact absurd ⟨[], c :: cs, rfl, rfl⟩ h
    | succ n =>
      rw [lineFrom]
      split
      · next hle =>
        apply ih
        rintro ⟨before, after, rfl, hsize⟩
        refine h ⟨c :: before, after, rfl, ?_⟩
        rw [byteSize_cons, hsize]
        omega
      · rfl

/-! ### Lines -/

/-- The place at which the piece after these begins. -/
def startAfter (pieces : List (List Char)) : Nat :=
  pieces.foldr (fun piece n => byteSize piece + 1 + n) 0

@[simp] theorem startAfter_nil : startAfter [] = 0 :=
  rfl

@[simp] theorem startAfter_cons (piece : List Char) (pieces : List (List Char)) :
    startAfter (piece :: pieces) = byteSize piece + 1 + startAfter pieces :=
  rfl

@[simp] theorem startAfter_append (pieces pieces' : List (List Char)) :
    startAfter (pieces ++ pieces') = startAfter pieces + startAfter pieces' := by
  induction pieces with
  | nil => rw [List.nil_append, startAfter_nil, Nat.zero_add]
  | cons piece pieces ih =>
    rw [List.cons_append, startAfter_cons, startAfter_cons, ih, ← Nat.add_assoc]

/-- The place is on the line of that number: in that piece of the text, its line
feed included. -/
def OnLine (text : List Char) (line offset : Nat) : Prop :=
  ∃ earlier piece later, text.splitOn '\n' = earlier ++ piece :: later ∧
    line = earlier.length + 1 ∧ startAfter earlier ≤ offset ∧
      offset ≤ startAfter earlier + byteSize piece

theorem onLine_zero (text : List Char) : OnLine text 1 0 := by
  obtain ⟨piece, later, hsplit⟩ : ∃ piece later, text.splitOn '\n' = piece :: later :=
    List.exists_cons_of_ne_nil (List.splitOn_ne_nil _ _)
  exact ⟨[], piece, later, hsplit, rfl, Nat.le_refl _, Nat.zero_le _⟩

/-- Behind a line feed a place is on the next line. -/
theorem OnLine.feed (h : OnLine text line offset) :
    OnLine ('\n' :: text) (line + 1) (1 + offset) := by
  obtain ⟨earlier, piece, later, hsplit, rfl, hstart, hend⟩ := h
  have hsplit' : ('\n' :: text).splitOn '\n' = [] :: earlier ++ piece :: later := by
    rw [List.splitOn_cons_eq_if_modifyHead, hsplit]
    rfl
  have hstart' : startAfter ([] :: earlier) = 1 + startAfter earlier := by
    rw [startAfter_cons, byteSize_nil, Nat.zero_add]
  refine ⟨[] :: earlier, piece, later, hsplit', rfl, ?_, ?_⟩
  · omega
  · omega

/-- Behind any other character it is on the same line. -/
theorem OnLine.cons {c : Char} (hc : c ≠ '\n') (h : OnLine text line offset) :
    OnLine (c :: text) line (c.utf8Size + offset) := by
  obtain ⟨earlier, piece, later, hsplit, hline, hstart, hend⟩ := h
  have hsplit' : (c :: text).splitOn '\n' =
      (earlier ++ piece :: later).modifyHead (List.cons c) := by
    rw [List.splitOn_cons_eq_if_modifyHead, hsplit, if_neg (by simpa using hc)]
  -- the first line has one more character
  cases earlier with
  | nil =>
    refine ⟨[], c :: piece, later, hsplit', hline, Nat.zero_le _, ?_⟩
    rw [startAfter_nil] at hend ⊢
    rw [byteSize_cons]
    omega
  | cons first earlier =>
    have hstart' : startAfter ((c :: first) :: earlier) =
        c.utf8Size + startAfter (first :: earlier) := by
      simp only [startAfter_cons, byteSize_cons, Nat.add_assoc]
    refine ⟨(c :: first) :: earlier, piece, later, hsplit', hline, ?_, ?_⟩
    · omega
    · omega

/-- A place is on the line that the line feeds before it count. -/
theorem onLine_append (before after : List Char) :
    OnLine (before ++ after) (1 + before.count '\n') (byteSize before) := by
  induction before with
  | nil => exact onLine_zero after
  | cons c cs ih =>
    by_cases hc : c = '\n'
    · subst hc
      rw [List.count_cons_self, ← Nat.add_assoc]
      exact ih.feed
    · rw [List.count_cons_of_ne hc]
      exact ih.cons hc

/-- No place is on two lines: a later line begins behind the line feed of an earlier
one. -/
theorem OnLine.le {line' : Nat} (h : OnLine text line offset) (h' : OnLine text line' offset) :
    line ≤ line' := by
  obtain ⟨earlier, piece, later, hsplit, hline, hstart, -⟩ := h
  obtain ⟨earlier', piece', later', hsplit', hline', -, hend'⟩ := h'
  refine Nat.le_of_not_lt fun hlt => ?_
  have hearlier : earlier <+: text.splitOn '\n' := ⟨piece :: later, hsplit.symm⟩
  have hearlier' : earlier' ++ [piece'] <+: text.splitOn '\n' :=
    ⟨later', by rw [hsplit', List.append_assoc, List.singleton_append]⟩
  have hlength : (earlier' ++ [piece']).length ≤ earlier.length := by
    rw [List.length_append, List.length_singleton]
    omega
  obtain ⟨between, rfl⟩ := List.prefix_of_prefix_length_le hearlier' hearlier hlength
  simp only [startAfter_append, startAfter_cons, startAfter_nil] at hstart
  omega

/-- A place is on its line and on no other. -/
theorem onLine_iff (before after : List Char) {line : Nat} :
    OnLine (before ++ after) line (byteSize before) ↔ line = 1 + before.count '\n' := by
  have hline := onLine_append before after
  constructor
  · intro h
    exact Nat.le_antisymm (h.le hline) (hline.le h)
  · rintro rfl
    exact hline

/-! ### The line of a place -/

/-- What the line is that a text is said to fail on: the line of the place, if that
is a place of the text, and else the first. -/
structure IsLineOf (text : List Char) (offset? : Option Nat) (line : Nat) : Prop where
  pos : 1 ≤ line
  le_count : line ≤ 1 + text.count '\n'
  /-- Only the line feeds before the place count. -/
  eq_count : ∀ before after, text = before ++ after → offset? = some (byteSize before) →
    line = 1 + before.count '\n'
  onLine_iff : ∀ offset, offset? = some offset → IsPlace text offset →
    ∀ n, OnLine text n offset ↔ n = line
  eq_one : (∀ offset, offset? = some offset → ¬ IsPlace text offset) → line = 1

/-- At a place of the text there is one such line. -/
theorem IsLineOf.unique {line' : Nat} (h : IsLineOf text (some offset) line)
    (h' : IsLineOf text (some offset) line') (hplace : IsPlace text offset) : line = line' := by
  obtain ⟨before, after, rfl, rfl⟩ := hplace
  rw [h.eq_count before after rfl rfl, h'.eq_count before after rfl rfl]

theorem isLineOf_lineAt (text : List Char) (offset? : Option Nat) :
    IsLineOf text offset? (lineAt text offset?) := by
  by_cases h : ∃ before after, text = before ++ after ∧ offset? = some (byteSize before)
  · obtain ⟨before, after, rfl, rfl⟩ := h
    have hline : lineAt (before ++ after) (some (byteSize before)) = 1 + before.count '\n' :=
      lineFrom_append 1 before after
    rw [hline]
    refine ⟨Nat.le_add_right _ _, ?_, ?_, ?_, ?_⟩
    · rw [List.count_append]
      omega
    · intro before' after' heq hsize
      have hline' := lineFrom_append 1 before' after'
      rw [← heq, ← Option.some.inj hsize] at hline'
      exact hline.symm.trans hline'
    · rintro _ ⟨⟩ -
      intro n
      exact onLine_iff before after
    · intro hno
      exact absurd ⟨before, after, rfl, rfl⟩ (hno _ rfl)
  · have hno : ∀ offset, offset? = some offset → ¬ IsPlace text offset := by
      rintro _ rfl ⟨before, after, htext, rfl⟩
      exact h ⟨before, after, htext, rfl⟩
    have hline : lineAt text offset? = 1 := by
      cases offset? with
      | none => rfl
      | some offset => exact lineFrom_of_not_place (hno offset rfl)
    rw [hline]
    refine ⟨Nat.le_refl _, Nat.le_add_right _ _, ?_, ?_, fun _ => rfl⟩
    · intro before after htext hsize
      exact absurd ⟨before, after, htext, hsize⟩ h
    · intro offset hoffset hplace
      exact absurd hplace (hno offset hoffset)

end WorkspaceAudit.Text

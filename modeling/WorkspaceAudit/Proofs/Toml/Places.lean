/-
WorkspaceAudit/Proofs/Toml/Places.lean

A document that cannot be read fails at a place of its text.

Every reader of the grammar stays in its text, from the white space up to the whole
document; for repetitions and nested values the induction is on their bound.  The byte
that a failure is reported at is therefore always a place between two characters or at
an end of the text (`parse_place`): none lies outside or within a character.
-/
import WorkspaceAudit.Proofs.Text.Lines
import WorkspaceAudit.Proofs.Toml.Remainders
import WorkspaceAudit.Toml.Document

namespace WorkspaceAudit.Toml

open Reader

/-! ### White space -/

theorem stays_blanks : Stays blanks :=
  fun _ => List.dropWhile_suffix isBlank

theorem stays_lineFeed : Stays lineFeed := by
  intro s
  fun_cases lineFeed s with
  | case1 r => exact List.suffix_cons _ r
  | case2 r => exact (List.suffix_cons _ r).trans (List.suffix_cons _ _)
  | case3 s => exact List.suffix_refl s

theorem dropSpace_suffix (s : List Char) : dropSpace s <:+ s := by
  fun_induction dropSpace s with
  | case1 r ih => exact ih.trans ((List.suffix_cons _ r).trans (List.suffix_cons _ _))
  | case2 c r _ _ ih => exact ih.trans (List.suffix_cons c r)
  | case3 c r => exact List.suffix_refl _
  | case4 => exact List.suffix_refl _

theorem dropLineFeed_suffix (s : List Char) : dropLineFeed s <:+ s := by
  rw [dropLineFeed]
  split
  · next r h => exact stays_lineFeed.done h
  · exact List.suffix_refl s

/-! ### Strings -/

theorem stays_codePoint (digits : Nat) : Stays (codePoint digits) := by
  intro s
  rw [codePoint]
  dsimp only
  split
  · split
    · exact List.drop_suffix digits s
    · exact stays_refuse .outOfRange s
  · exact List.suffix_refl s

theorem stays_escape : Stays escape := by
  intro s
  fun_cases escape s with
  | case1 => exact List.suffix_refl _
  | case2 c r e => exact List.suffix_cons c r
  | case3 r =>
    exact ((stays_codePoint 4).firm.label _ r).trans (List.suffix_cons _ r)
  | case4 r =>
    exact ((stays_codePoint 8).firm.label _ r).trans (List.suffix_cons _ r)
  | case5 c r => exact List.suffix_cons c r

theorem continued?_suffix {s r : List Char} (h : continued? s = some r) : r <:+ s := by
  rw [continued?] at h
  split at h
  · next r' hfeed =>
    obtain rfl := Option.some.inj h
    exact (dropSpace_suffix r').trans
      ((stays_lineFeed.done hfeed).trans (List.dropWhile_suffix isBlank))
  · cases h

theorem stays_basicFrom (n : Nat) (soFar : List Char) : Stays (basicFrom n soFar) := by
  intro s
  fun_induction basicFrom n soFar s with
  | case1 n soFar c r _ ih => exact ih.trans (List.suffix_cons c r)
  | case2 n soFar r => exact List.suffix_cons _ r
  | case3 n soFar r e r' h _ _ ih =>
    exact ih.trans ((stays_escape.done h).trans (List.suffix_cons _ r))
  | case4 n soFar r e h => exact List.suffix_refl _
  | case5 n soFar r e h => exact (stays_escape.stop h).trans (List.suffix_cons _ r)
  | case6 n soFar c r => exact List.suffix_refl _
  | case7 n soFar s => exact List.suffix_refl s

theorem stays_basic : Stays basic := by
  intro s
  fun_cases basic s with
  | case1 r => exact (stays_basicFrom _ _ r).trans (List.suffix_cons _ r)
  | case2 s => exact List.suffix_refl s

/-- What follows the closing quotes of a block follows the first of them. -/
theorem suffix_of_closing {q : Char} {r rest : List Char} {before : Nat}
    (h : quoteRole q r = .closing before rest) : rest <:+ r := by
  revert h
  fun_cases quoteRole q r
  case case1 =>
    rintro ⟨⟩
    exact List.suffix_append [_, _, _, _] _
  case case2 =>
    rintro ⟨⟩
    exact List.suffix_append [_, _, q] _
  case case3 | case5 =>
    rintro ⟨⟩
    exact List.suffix_append [_, _] _
  case case4 | case6 =>
    rintro ⟨⟩
    exact List.nil_suffix
  case case7 | case8 | case9 | case10 => exact nofun

theorem stays_basicBlockFrom (n : Nat) (soFar : List Char) : Stays (basicBlockFrom n soFar) := by
  intro s
  fun_induction basicBlockFrom n soFar s with
  | case1 n soFar c r _ ih => exact ih.trans (List.suffix_cons c r)
  | case2 n soFar r _ _ ih => exact ih.trans (List.suffix_cons _ r)
  | case3 n soFar r before rest h => exact (suffix_of_closing h).trans (List.suffix_cons _ r)
  | case4 n soFar r h => exact List.suffix_refl _
  | case5 n soFar r r' h _ _ ih =>
    exact ih.trans ((continued?_suffix h).trans (List.suffix_cons _ r))
  | case6 n soFar r _ e r' h _ _ ih =>
    exact ih.trans ((stays_escape.done h).trans (List.suffix_cons _ r))
  | case7 n soFar r _ e h => exact List.suffix_refl _
  | case8 n soFar r _ e h => exact (stays_escape.stop h).trans (List.suffix_cons _ r)
  | case9 n soFar c r _ _ _ u r' h ih => exact ih.trans (stays_lineFeed.done h)
  | case10 n soFar c r => exact List.suffix_refl _
  | case11 n soFar s => exact List.suffix_refl s

theorem stays_basicBlock : Stays basicBlock := by
  intro s
  rw [basicBlock]
  split
  · next r h =>
    exact (stays_basicBlockFrom _ _ _).trans
      ((dropLineFeed_suffix r).trans (dropStart?_suffix h))
  · exact List.suffix_refl s

theorem stays_literal : Stays literal := by
  apply Stays.label
  intro s
  dsimp only
  split
  · next r =>
    have hrest := List.dropWhile_suffix isLiteral (l := r)
    split
    · next r' h =>
      rw [h] at hrest
      exact ((List.suffix_cons _ r').trans hrest).trans (List.suffix_cons _ r)
    · exact hrest.trans (List.suffix_cons _ r)
  · exact List.suffix_refl _

theorem stays_literalBlockFrom (n : Nat) (soFar : List Char) :
    Stays (literalBlockFrom n soFar) := by
  intro s
  fun_induction literalBlockFrom n soFar s with
  | case1 n soFar c r _ ih => exact ih.trans (List.suffix_cons c r)
  | case2 n soFar r _ _ ih => exact ih.trans (List.suffix_cons _ r)
  | case3 n soFar r before rest h => exact (suffix_of_closing h).trans (List.suffix_cons _ r)
  | case4 n soFar r h => exact List.suffix_refl _
  | case5 n soFar c r _ _ u r' h ih => exact ih.trans (stays_lineFeed.done h)
  | case6 n soFar c r => exact List.suffix_refl _
  | case7 n soFar s => exact List.suffix_refl s

theorem stays_literalBlock : Stays literalBlock := by
  intro s
  rw [literalBlock]
  split
  · next r h =>
    exact (stays_literalBlockFrom _ _ _).trans
      ((dropLineFeed_suffix r).trans (dropStart?_suffix h))
  · exact List.suffix_refl s

theorem stays_text : Stays text :=
  ((stays_basicBlock.orElse stays_basic).orElse stays_literalBlock).orElse stays_literal

/-! ### Keys -/

theorem stays_simpleKey : Stays simpleKey := by
  intro s
  fun_cases simpleKey s with
  | case1 r => exact stays_basic _
  | case2 r => exact stays_literal _
  | case3 s => exact (stays_many1 isBareKeyChar).bind (fun _ => .pure _) s

theorem stays_key : Stays key :=
  have spaced := stays_blanks.bind fun _ => stays_simpleKey.bind fun k =>
    stays_blanks.bind fun _ => .pure k
  ((spaced.separated (stays_sign '.')).label "key").checked _

/-! ### Dates and times -/

theorem stays_number (width low high : Nat) : Stays (number width low high) := by
  intro s
  rw [number]
  dsimp only
  split
  · split
    · exact List.drop_suffix width s
    · exact stays_refuse .outOfRange s
  · exact List.suffix_refl s

theorem stays_fullDate : Stays fullDate :=
  (stays_number 4 0 9999).bind fun _ => (stays_sign '-').bind fun _ =>
    (stays_number 2 1 12).firm.bind fun _ => (stays_sign '-').firm.bind fun _ =>
      ((stays_number 2 1 31).checked _).firm.bind fun _ => .pure _

theorem stays_nanoseconds : Stays nanoseconds :=
  (stays_sign '.').bind fun _ => (stays_many1 Char.isDigit).bind fun _ => .pure _

theorem stays_partialTime : Stays partialTime :=
  (stays_number 2 0 23).bind fun _ => (stays_sign ':').bind fun _ => Stays.firm <|
    (stays_number 2 0 59).bind fun _ => (stays_sign ':').bind fun _ =>
      (stays_number 2 0 60).bind fun _ => stays_nanoseconds.optional.bind fun _ => .pure _

theorem stays_offset : Stays offset := by
  refine Stays.label (Stays.orElse ?zulu ?minutes) _
  case zulu => exact (stays_one _).bind fun _ => .pure _
  case minutes =>
    exact (stays_one _).bind fun _ => Stays.firm <| (stays_number 2 0 23).bind fun _ =>
      (stays_sign ':').bind fun _ => (stays_number 2 0 59).bind fun _ => .pure _

theorem stays_timeAfterDate : Stays timeAfterDate :=
  (stays_one _).bind fun _ => stays_partialTime.bind fun _ =>
    stays_offset.optional.bind fun _ => .pure _

theorem stays_datetime : Stays datetime := by
  apply Stays.orElse
  · refine (stays_fullDate.bind fun d => stays_timeAfterDate.optional.bind fun t => ?_).label _
    rcases t with - | ⟨t, - | o⟩
    all_goals exact .pure _
  · exact (stays_partialTime.bind fun _ => .pure _).label _

/-! ### Numbers -/

theorem stays_digitsFrom (isDigit : Char → Bool) (soFar : List Char) :
    Stays (digitsFrom isDigit soFar) := by
  intro s
  fun_induction digitsFrom isDigit soFar s with
  | case1 soFar d r _ ih => exact ih.trans ((List.suffix_cons d r).trans (List.suffix_cons _ _))
  | case2 soFar d r => exact List.suffix_cons _ _
  | case3 soFar => exact List.nil_suffix
  | case4 soFar d r _ _ _ ih => exact ih.trans (List.suffix_cons d r)
  | case5 soFar d r => exact List.suffix_refl _
  | case6 soFar => exact List.suffix_refl _

theorem stays_digits (isDigit : Char → Bool) : Stays (digits isDigit) := by
  intro s
  fun_cases digits isDigit s with
  | case1 d r => exact (stays_digitsFrom isDigit [d] r).trans (List.suffix_cons d r)
  | case2 d r => exact List.suffix_refl _
  | case3 => exact List.suffix_refl _

theorem stays_minus : Stays minus := by
  intro s
  fun_cases minus s with
  | case1 r => exact List.suffix_cons _ r
  | case2 r => exact List.suffix_cons _ r
  | case3 s => exact List.suffix_refl s

theorem stays_decimalInteger : Stays decimalInteger := by
  refine (stays_minus.bind fun _ => Stays.bind ?_ fun _ => .pure _).label _
  intro s
  dsimp only
  split
  · next r => exact List.suffix_cons _ r
  · exact stays_digits Char.isDigit _

theorem stays_basedInteger (mark : List Char) (form : String) (isDigit : Char → Bool) :
    Stays (basedInteger mark form isDigit) :=
  (((stays_signs mark).bind fun _ => (stays_digits isDigit).firm).label form).firm

theorem stays_integer : Stays integer := by
  have based (mark : List Char) (form : String) (isDigit : Char → Bool) (base : Nat) :=
    ((stays_basedInteger mark form isDigit).checked fun ds => fitted false (ofDigits base ds)).firm
  intro s
  unfold integer
  dsimp only
  split
  · exact based _ _ _ _ _
  · exact based _ _ _ _ _
  · exact based _ _ _ _ _
  · split
    · next negative ds r h =>
      split
      · exact stays_decimalInteger.done h
      · exact List.suffix_refl s
    · next e h => exact stays_decimalInteger.miss h
    · next e h => exact stays_decimalInteger.stop h

theorem stays_fraction : Stays fraction :=
  (stays_sign '.').bind fun _ => (stays_digits Char.isDigit).firm.expecting _

theorem stays_exponent : Stays exponent :=
  (stays_one _).bind fun _ => stays_minus.bind fun _ =>
    (stays_digits Char.isDigit).firm.bind fun _ => .pure _

theorem stays_scaling : Stays scaling :=
  (stays_exponent.bind fun _ => .pure _).orElse
    (stays_fraction.bind fun _ => stays_exponent.optional.bind fun _ => .pure _)

theorem stays_finiteFloat : Stays finiteFloat := by
  have parts := stays_decimalInteger.bind fun n => stays_scaling.bind fun m => .pure (n, m)
  intro s
  rw [finiteFloat]
  split
  · next negative ds places e r h =>
    have hrest := parts.done h
    dsimp only
    split
    · exact hrest
    · exact hrest
  · next e h => exact parts.miss h
  · next e h => exact parts.stop h

theorem stays_namedFloat : Stays namedFloat :=
  stays_minus.bind fun _ => ((stays_signs _).bind fun _ => .pure _).orElse
    ((stays_signs _).bind fun _ => .pure _)

theorem stays_float : Stays float :=
  (stays_finiteFloat.orElse stays_namedFloat).label _

/-! ### Lines -/

theorem stays_comment : Stays comment :=
  (stays_sign '#').bind fun _ => (stays_many isCommentChar).bind fun _ => .pure _

theorem stays_lineEnd : Stays lineEnd :=
  stays_lineFeed.orElse stays_finish

theorem stays_lineRest : Stays lineRest :=
  stays_blanks.bind fun _ => stays_comment.optional.bind fun _ => stays_lineEnd

theorem stays_skipLines (inComment : Bool) : Stays (skipLines inComment) := by
  intro s
  fun_induction skipLines inComment s with
  | case1 inComment r ih => exact ih.trans (List.suffix_cons _ r)
  | case2 inComment r ih =>
    exact ih.trans ((List.suffix_cons _ r).trans (List.suffix_cons _ _))
  | case3 c r _ _ _ ih => exact ih.trans (List.suffix_cons c r)
  | case4 c r => exact List.suffix_refl _
  | case5 inComment c r _ _ _ _ ih => exact ih.trans (List.suffix_cons c r)
  | case6 inComment r _ _ _ _ ih => exact ih.trans (List.suffix_cons _ r)
  | case7 inComment r => exact List.suffix_refl _
  | case8 inComment c r => exact List.suffix_refl _
  | case9 => exact List.suffix_refl _
  | case10 inComment => exact List.suffix_refl _

/-! ### Values -/

section Nested

variable {nested : Reader Value}

theorem stays_arrayValues (hnested : Stays nested) : Stays (arrayValues nested) := by
  have element := (stays_skipLines false).bind fun _ => hnested.bind fun v =>
    (stays_skipLines false).bind fun _ => .pure v
  intro s
  fun_cases arrayValues nested s with
  | case1 r => exact List.suffix_refl _
  | case2 s =>
    refine Stays.bind (element.separatedOrNone (stays_sign ',')) (fun vs => ?_) s
    have finished := (stays_skipLines false).bind fun _ => .pure vs
    split
    · exact (stays_sign ',').optional.bind fun _ => finished
    · exact finished

theorem stays_array (hnested : Stays nested) : Stays (array nested) :=
  (stays_sign '[').bind fun _ => (stays_arrayValues hnested).firm.bind fun _ =>
    (((stays_sign ']').expecting _).label _).firm.bind fun _ => .pure _

theorem stays_equals : Stays equals :=
  (stays_sign '=').expecting _

theorem stays_inlineEntry (hnested : Stays nested) : Stays (inlineEntry nested) :=
  stays_key.bind fun _ => Stays.firm <| stays_equals.bind fun _ => stays_blanks.bind fun _ =>
    hnested.bind fun _ => stays_blanks.bind fun _ => .pure _

theorem stays_inlineTable (hnested : Stays nested) : Stays (inlineTable nested) :=
  have entries := ((stays_inlineEntry hnested).separatedOrNone (stays_sign ',')).bind fun es =>
    stays_blanks.bind fun _ => .pure es
  have closing := (((stays_sign '\x7d').expecting _).label _).firm
  (stays_sign '\x7b').bind fun _ =>
    ((entries.checked inlineTable?).bind fun v => closing.bind fun _ => .pure v).firm

theorem stays_word {p : Reader Value} (hp : Stays p) : Stays (word p) :=
  (hp.expecting _).label _

theorem stays_valueOf (hnested : Stays nested) : Stays (valueOf nested) := by
  have string := stays_text.bind fun t => .pure (Value.string t)
  have date := stays_datetime.bind fun d => .pure (Value.datetime d)
  have named : ∀ (name : String) (v : Value), Stays (do signs name.toList; return v) :=
    fun name v => (stays_signs _).bind fun _ => .pure v
  intro s
  fun_cases valueOf nested s with
  | case1 => exact List.suffix_refl _
  | case2 c r => exact string _
  | case3 c r => exact hnested _
  | case4 c r => exact ((date.orElse stays_float).orElse stays_integer) _
  | case5 r => exact (stays_integer.expecting _) _
  | case6 r => exact (stays_float.expecting _) _
  | case7 r => exact stays_word (named "true" _).firm _
  | case8 r => exact stays_word (named "false" _).firm _
  | case9 r => exact stays_word (named "inf" _) _
  | case10 r => exact stays_word (named "nan" _) _
  | case11 c r => exact stays_word stays_fail _

theorem stays_container (hnested : Stays nested) : Stays (container nested) :=
  (stays_array hnested).orElse (stays_inlineTable hnested)

end Nested

theorem stays_value (depth : Nat) : Stays (value depth) := by
  induction depth with
  | zero => exact stays_valueOf (stays_refuse .tooDeep).firm
  | succ depth ih => exact stays_valueOf (stays_container ih)

/-! ### Items -/

theorem stays_entry (d : Draft) : Stays (entry d) :=
  Stays.checked (stays_key.bind fun _ => Stays.firm <| stays_equals.bind fun _ =>
    stays_blanks.bind fun _ => (stays_value depthLimit).bind fun _ =>
      (stays_lineRest.expecting _).bind fun _ => .pure _) _

theorem stays_bracketed (opening closing : String) (enter : KeyPath → Except Cause Draft) :
    Stays (bracketed opening closing enter) :=
  ((stays_signs _).bind fun _ => stays_key.firm.bind fun _ =>
    ((stays_signs _).expecting _).firm.bind fun _ =>
      (stays_lineRest.expecting _).firm.bind fun _ => .pure _).checked enter

theorem stays_header (d : Draft) : Stays (header d) := by
  apply Stays.label
  intro s
  dsimp only
  split
  · exact stays_bracketed _ _ _ _
  · exact stays_bracketed _ _ _ _
  · exact List.suffix_refl _

theorem stays_item (d : Draft) : Stays (item d) := by
  intro s
  fun_cases item d s with
  | case1 => exact List.suffix_refl _
  | case2 r => exact (stays_comment.bind fun _ => stays_lineEnd.bind fun _ => .pure d).firm _
  | case3 r => exact (stays_header d).firm _
  | case4 r => exact List.suffix_cons _ r
  | case5 r => exact (stays_lineFeed.bind fun _ => .pure d) _
  | case6 s => exact (stays_entry d).firm s

theorem stays_items (n : Nat) (d : Draft) : Stays (items n d) := by
  intro s
  fun_induction items n d s with
  | case1 d s => exact List.suffix_refl s
  | case2 n d s d' r h ih =>
    exact ih.trans ((List.dropWhile_suffix isBlank).trans ((stays_item d).done h))
  | case3 n d s e h => exact List.suffix_refl s
  | case4 n d s e h => exact (stays_item d).stop h

theorem stays_document : Stays document :=
  (stays_sign '\uFEFF').optional.bind fun _ => stays_blanks.bind fun _ =>
    Stays.bind (fun s => stays_items s.length .empty s) fun _ =>
      stays_finish.bind fun _ => .pure _

/-! ### Texts -/

/-- A text that is no document fails at a place that is known, where its bytes part
into those of two texts. -/
theorem parse_place {text : String} {e : ParseError} (h : parse text = .error e) :
    ∃ before after, text = before ++ after ∧
      e.offset? = some (Bytes.ofText before).length := by
  suffices hoffset : ∃ offset, e.offset? = some offset ∧ Text.IsPlace text.toList offset by
    obtain ⟨offset, hoffset, hplace⟩ := hoffset
    obtain ⟨before, after, htext, hlength⟩ := Text.isPlace_toList_iff.mp hplace
    exact ⟨before, after, htext, hlength ▸ hoffset⟩
  -- the place of a failure is told by what was left of the text
  have hplace : ∀ rest, rest <:+ text.toList →
      Text.IsPlace text.toList (Text.byteSize text.toList - Text.byteSize rest) := by
    rintro rest ⟨before, htext⟩
    refine ⟨before, rest, htext.symm, ?_⟩
    rw [← htext, Text.byteSize_append, Nat.add_sub_cancel]
  rw [parse] at h
  dsimp only at h
  split at h
  · cases h
  · next f hf =>
    cases h
    exact ⟨_, rfl, hplace f.rest (stays_document.miss hf)⟩
  · next f hf =>
    cases h
    exact ⟨_, rfl, hplace f.rest (stays_document.stop hf)⟩

end WorkspaceAudit.Toml

/-
WorkspaceAudit/Proofs/Toml/Values.lean

The text of a value is read back.

A value of a document has integers of 64 bits, floats of the format, dates that there
are, and tables whose keys are in order (`Value.Within`); arrays and tables nest only so
deep.  What such a value is written as is read as the same value, wherever a value may
stand (`Value.reads_text`), so it tells the value apart from every other one.
-/
import WorkspaceAudit.Proofs.Toml.Draft
import WorkspaceAudit.Proofs.Toml.Inline
import WorkspaceAudit.Proofs.Toml.Numbers
import WorkspaceAudit.Proofs.Toml.Strings

namespace WorkspaceAudit.Toml

open Reader

variable {r s : List Char}

/-! ### Keys -/

theorem bare_of_isBareKey {name : String} (h : isBareKey name.toList = true) : Bare name := by
  simp only [isBareKey, isBareKeyChar, Bool.and_eq_true, List.all_eq_true, Bool.or_eq_true,
    beq_iff_eq, Bool.not_eq_true', List.isEmpty_eq_false_iff] at h
  refine ⟨fun hnil => h.1 (by rw [hnil]; rfl), fun c hc => ?_⟩
  have hchar := h.2 c hc
  tauto

/-- What a key is written as is read as the key, before an equals sign. -/
theorem reads_keyText (name : String) (r : List Char) :
    Reads key (keyText name ++ ' ' :: '=' :: r) ⟨[], name⟩ ('=' :: r) := by
  unfold keyText
  dsimp only
  split
  · next hbare => exact (bare_of_isBareKey hbare).isKeyText.reads r
  split
  · next hform =>
    simp only [Bool.and_eq_true, List.all_eq_true, Bool.or_eq_true, beq_iff_eq, bne_iff_ne,
      Bool.not_eq_true'] at hform
    obtain ⟨⟨hplain, -⟩, hquote⟩ := hform
    have hliteral : ∀ c ∈ name.toList, isLiteral c :=
      fun c hc => isLiteral_of_not_control (hplain c hc) (hquote c hc)
    have hread := reads_literal hliteral (' ' :: '=' :: r)
    rw [String.ofList_toList] at hread
    refine reads_key_simple (stops_cons rfl _) ?_
    rw [List.cons_append, List.append_assoc, List.singleton_append]
    exact hread
  · have hread := reads_basicText name.toList (' ' :: '=' :: r)
    rw [String.ofList_toList] at hread
    exact reads_key_simple (stops_cons rfl _) hread

/-! ### Values of a document -/

/-- A value that a document may hold, in which arrays and tables nest at most so deep. -/
inductive Value.Within : Nat → Value → Prop
  | string {depth : Nat} (s : String) : Within depth (.string s)
  | integer {depth : Nat} {n : Int} : -2 ^ 63 ≤ n → n < 2 ^ 63 → Within depth (.integer n)
  | float {depth : Nat} {x : Binary64} : x.Canonical → Within depth (.float x)
  | boolean {depth : Nat} (b : Bool) : Within depth (.boolean b)
  | datetime {depth : Nat} {d : Datetime} : d.Valid → Within depth (.datetime d)
  | array {depth : Nat} {vs : List Value} : (∀ v ∈ vs, Within depth v) →
      Within (depth + 1) (.array vs)
  | table {depth : Nat} {fs : List (String × Value)} :
      (fs.Pairwise fun a b => a.1 < b.1) → Fields.datetime? fs = none →
      (∀ f ∈ fs, Within depth f.2) → Within (depth + 1) (.table fs)

/-- What is read as a value does not start with white space, a comment or a closing
bracket. -/
theorem opens_of_reads {p : Reader Value} {v : Value} (h : Reads (valueOf p) s v r) :
    ∃ c cs, s = c :: cs ∧ isBlank c = false ∧ c ≠ '\n' ∧ c ≠ '\r' ∧ c ≠ '#' ∧ c ≠ ']' := by
  cases s with
  | nil => cases h
  | cons c cs =>
    refine ⟨c, cs, rfl, ?_, ?_, ?_, ?_, ?_⟩
    · by_contra hblank
      simp only [isBlank, Bool.not_eq_false, Bool.or_eq_true, beq_iff_eq] at hblank
      rcases hblank with rfl | rfl <;> cases h
    all_goals
      rintro rfl
      cases h

/-! ### Items -/

/-- The text of a value is read as the value, where a value ends. -/
def IsTextOf (p : Reader Value) (t : List Char) (v : Value) : Prop :=
  ∀ ⦃r⦄, EndsValue r → Reads p (t ++ r) v r

theorem commaSeparated_cons (t : List Char) (ts : List (List Char)) :
    commaSeparated (t :: ts) = t ++ following ts := by
  induction ts generalizing t with
  | nil => exact (List.append_nil t).symm
  | cons t' ts ih =>
    rw [commaSeparated, ih]
    · simp [following]
    · exact List.cons_ne_nil t' ts

/-- White space is skipped up to a character that is none. -/
theorem reads_skipLines {c : Char} {t : List Char} (hs : s.dropWhile isBlank = c :: t)
    (hc : c ≠ '\n' ∧ c ≠ '\r' ∧ c ≠ '#') : Reads (skipLines false) s () (c :: t) := by
  induction s with
  | nil => cases hs
  | cons b s ih =>
    by_cases hblank : isBlank b = true
    · have hne : b ≠ '\n' ∧ b ≠ '\r' := by
        rw [isBlank, Bool.or_eq_true, beq_iff_eq, beq_iff_eq] at hblank
        rcases hblank with rfl | rfl <;> decide
      rw [List.dropWhile_cons_of_pos hblank] at hs
      rw [Reads, skipLines, if_neg Bool.false_ne_true, if_pos hblank]
      · exact ih hs
      · exact hne.1
      · exact fun _ heq _ => hne.2 heq
    · rw [List.dropWhile_cons_of_neg hblank] at hs
      obtain ⟨rfl, rfl⟩ := List.cons.inj hs
      rw [Reads, skipLines, if_neg Bool.false_ne_true, if_neg hblank, if_neg hc.2.2, if_neg hc.2.1]
      · exact hc.1
      · exact fun _ heq _ => hc.2.1 heq

/-- A value in an array, with the white space around it. -/
def element (p : Reader Value) : Reader Value := do
  skipLines false
  let v ← p
  skipLines false
  return v

section Elements

variable {container : Reader Value} {t : List Char} {v : Value}

theorem reads_element (h : IsTextOf (valueOf container) t v) (hr : EndsItem r) {b : List Char}
    (hb : b = [] ∨ b = [' ']) :
    Reads (element (valueOf container)) (b ++ (t ++ r)) v (r.dropWhile isBlank) := by
  have hread := h hr.endsValue
  obtain ⟨c, cs, hcs, hblank, hfeed, hreturn, hcomment, -⟩ := opens_of_reads hread
  have hstart : (b ++ (t ++ r)).dropWhile isBlank = c :: cs := by
    have hstop : Stops isBlank (c :: cs) := stops_cons hblank cs
    rw [hcs]
    rcases hb with rfl | rfl
    · exact hstop.dropWhile
    · exact hstop.dropWhile
  have hbefore : Reads (skipLines false) (b ++ (t ++ r)) () (t ++ r) := by
    rw [hcs]
    exact reads_skipLines (hcs ▸ hstart) ⟨hfeed, hreturn, hcomment⟩
  obtain ⟨d, ds, hds, hd⟩ := hr
  have hafter : Reads (skipLines false) r () (r.dropWhile isBlank) := by
    rw [hds]
    refine reads_skipLines hds ?_
    rcases hd with rfl | rfl | rfl <;> decide
  exact hbefore.bind (hread.bind (hafter.bind (Reads.pure v _)))

/-- An array is read as its values. -/
theorem reads_array {ts : List (List Char)} {vs : List Value}
    (h : List.Forall₂ (IsTextOf (valueOf container)) ts vs) (r : List Char) :
    Reads (array (valueOf container)) ('[' :: (commaSeparated ts ++ ']' :: r)) (.array vs) r := by
  have hclosing := (((reads_sign ']' r).expecting [.sign "]"]).label "array").firm
  refine (reads_sign '[' _).bind (Reads.bind (a := vs) (Reads.firm ?_)
    (hclosing.bind (Reads.pure _ r)))
  cases h with
  | nil => rfl
  | @cons t v ts vs ht hts =>
    -- the first value, and what follows it up to the bracket
    have hclose : EndsItem (']' :: r) := endsItem_cons (.inr (.inl rfl)) r
    have hitems : List.Forall₂ (IsItemText (element (valueOf container))) ts vs :=
      hts.imp fun t v htext r hr => reads_element htext hr (.inr rfl)
    have hmore : More (element (valueOf container)) (sign ',')
        ((following ts ++ ']' :: r).dropWhile isBlank) vs (']' :: r) :=
      more_following hitems hclose (by simp [isBlank])
    have hfirst := reads_element ht (endsItem_following ts hclose) (.inl rfl)
    have hvalues := (hmore.separated hfirst (length_le_following hitems _)).separatedOrNone
    have hcomma : Reads (optional (sign ',')) (']' :: r) none (']' :: r) :=
      (misses_sign (by simp)).optional
    have hafter : Reads (skipLines false) (']' :: r) () (']' :: r) := rfl
    have hread := ht (endsItem_following ts hclose).endsValue
    obtain ⟨c, cs, hcs, -, -, -, -, hbracket⟩ := opens_of_reads hread
    rw [commaSeparated_cons, List.append_assoc, Reads, hcs, arrayValues]
    · rw [← hcs]
      exact hvalues.bind (hcomma.bind (hafter.bind (Reads.pure _ _)))
    · exact fun _ heq => hbracket (List.cons.inj heq).1

theorem isItemText_field (name : String) (h : IsTextOf (valueOf container) t v) :
    IsItemText (inlineEntry (valueOf container)) (keyText name ++ ' ' :: '=' :: ' ' :: t)
      (fieldEntry (name, v)) := by
  intro r hr
  have hread := h hr.endsValue
  obtain ⟨c, cs, hcs, hblank, -⟩ := opens_of_reads hread
  have hstart : Stops isBlank (t ++ r) := by
    rw [hcs]
    exact stops_cons hblank cs
  rw [List.append_assoc, List.cons_append, List.cons_append, List.cons_append]
  exact reads_inlineEntry (reads_keyText name) hstart hread

/-- A table is read as its fields. -/
theorem reads_table {fs : List (String × Value)} (hordered : fs.Pairwise fun a b => a.1 < b.1)
    (hplain : Fields.datetime? fs = none)
    (h : ∀ f ∈ fs, IsTextOf (valueOf container) f.2.text f.2) (r : List Char) :
    Reads (inlineTable (valueOf container)) ((Value.table fs).text ++ r) (.table fs) r := by
  -- no key is entered twice, since keys in order are distinct
  have hdistinct : (fs.map Prod.fst).Nodup :=
    List.pairwise_map.mpr (hordered.imp fun hlt heq => by
      rw [heq] at hlt
      exact String.lt_irrefl _ hlt)
  have hv := inlineTable?_fieldEntry hdistinct
  rw [Fields.close_of_ordered hplain hordered] at hv
  have hitems : List.Forall₂ (IsItemText (inlineEntry (valueOf container)))
      (fs.map fun f => keyText f.1 ++ ' ' :: '=' :: ' ' :: f.2.text) (fs.map fieldEntry) := by
    rw [List.forall₂_map_left_iff, List.forall₂_map_right_iff, List.forall₂_same]
    exact fun f hf => isItemText_field f.1 (h f hf)
  rw [Value.text, Value.fieldTexts_eq]
  cases fs with
  | nil => rfl
  | cons f fs =>
    have hread := reads_inlineTable hitems hv r
    rw [List.map_cons]
    dsimp only
    rw [commaSeparated_cons]
    simpa using hread

end Elements

/-! ### Values -/

theorem stringText_opens (cs : List Char) :
    ∃ q t, stringText cs = q :: t ∧ (q = '"' ∨ q = '\x27') := by
  unfold stringText
  dsimp only
  split
  · exact ⟨'"', _, rfl, .inl rfl⟩
  split
  · exact ⟨'\x27', _, rfl, .inr rfl⟩
  split
  · exact ⟨'"', _, rfl, .inl rfl⟩
  split
  · exact ⟨'\x27', _, rfl, .inr rfl⟩
  split
  · exact ⟨'"', _, rfl, .inl rfl⟩
  · exact ⟨'"', _, rfl, .inl rfl⟩

theorem table_opens (fs : List (String × Value)) : ∃ t, (Value.table fs).text = '\x7b' :: t := by
  rw [Value.text]
  split
  · exact ⟨_, rfl⟩
  · exact ⟨_, rfl⟩

theorem reads_value_string (container : Reader Value) (v : String) (hr : EndsValue r) :
    Reads (valueOf container) (stringText v.toList ++ r) (.string v) r := by
  obtain ⟨q, t, htext, hq⟩ := stringText_opens v.toList
  have hread := reads_stringText v.toList (hr.stops rfl) (hr.stops rfl)
  rw [String.ofList_toList] at hread
  have hvalue : Reads (do return .string (← text) : Reader Value) (stringText v.toList ++ r)
      (.string v) r := hread.bind (Reads.pure _ r)
  have hquote : (decide (q = '"') || decide (q = '\x27')) = true := by
    simpa using hq
  rw [htext, List.cons_append] at hvalue ⊢
  rw [Reads, valueOf, if_pos hquote]
  exact hvalue

theorem reads_value_boolean (container : Reader Value) (b : Bool) (r : List Char) :
    Reads (valueOf container) ((toString b).toList ++ r) (.boolean b) r := by
  cases b with
  | true =>
    have hname : Reads (firm do signs "true".toList; return .boolean true : Reader Value)
        ("true".toList ++ r) (.boolean true) r :=
      Reads.firm ((reads_signs _ r).bind (Reads.pure _ r))
    exact reads_word hname
  | false =>
    have hname : Reads (firm do signs "false".toList; return .boolean false : Reader Value)
        ("false".toList ++ r) (.boolean false) r :=
      Reads.firm ((reads_signs _ r).bind (Reads.pure _ r))
    exact reads_word hname

/-- **What a value is written as is read as the value.** -/
theorem Value.reads_text {depth : Nat} {v : Value} (h : v.Within depth) :
    IsTextOf (value depth) v.text v := by
  have hvalue : ∀ depth, ∃ container, value depth = valueOf container := by
    intro depth
    cases depth with
    | zero => exact ⟨_, rfl⟩
    | succ depth => exact ⟨_, rfl⟩
  -- on how the value nests: what is inside it is read by the reader of the depth below
  induction h with
  | @string depth s =>
    obtain ⟨container, hc⟩ := hvalue depth
    rw [hc, Value.text]
    exact fun r hr => reads_value_string container s hr
  | @integer depth n hlow hhigh =>
    obtain ⟨container, hc⟩ := hvalue depth
    rw [hc, Value.text]
    exact fun r hr => reads_value_integer container hlow hhigh hr
  | @float depth x hx =>
    obtain ⟨container, hc⟩ := hvalue depth
    rw [hc, Value.text]
    exact fun r hr => reads_value_float container hx hr
  | @boolean depth b =>
    obtain ⟨container, hc⟩ := hvalue depth
    rw [hc, Value.text]
    exact fun r _ => reads_value_boolean container b r
  | @datetime depth d hd =>
    obtain ⟨container, hc⟩ := hvalue depth
    rw [hc, Value.text]
    exact fun r hr => reads_value_datetime container hd hr
  | @array depth vs _ ih =>
    obtain ⟨inner, hc⟩ := hvalue depth
    rw [hc] at ih
    intro r _
    have hitems : List.Forall₂ (IsTextOf (valueOf inner)) (vs.map Value.text) vs := by
      rw [List.forall₂_map_left_iff, List.forall₂_same]
      exact ih
    have harray := (reads_array hitems r).orElse (inlineTable (valueOf inner))
    rw [value, hc, Value.text, Value.texts_eq, List.cons_append, List.append_assoc]
    exact harray
  | @table depth fs hordered hplain _ ih =>
    obtain ⟨inner, hc⟩ := hvalue depth
    rw [hc] at ih
    intro r _
    obtain ⟨t, ht⟩ := table_opens fs
    have htable := reads_table hordered hplain ih r
    rw [value, hc]
    rw [ht, List.cons_append] at htable ⊢
    have harray : Misses (Toml.array (valueOf inner)) ('\x7b' :: (t ++ r)) := Misses.bind ⟨_, rfl⟩
    exact harray.orElse htable

/-- The characters are the text of the value, and a document that holds the value reads
them as it. -/
structure Value.IsWritten (v : Value) (cs : List Char) : Prop where
  text : cs = v.text
  read : ∀ depth, v.Within depth → IsTextOf (Toml.value depth) cs v

theorem Value.isWritten (v : Value) : v.IsWritten v.text :=
  ⟨rfl, fun _ h => reads_text h⟩

end WorkspaceAudit.Toml

/-
WorkspaceAudit/Proofs/Toml/Printing.lean

Where the text of a value has line feeds.

A number, a truth value, a date and a key are always written on one line.  A
string is not: of the forms of quotes all but the plain double ones show a line
feed as it is, and those are taken only for a string without any
(`mem_stringText_iff`).  So the text of a value has a line feed exactly if some
string inside it has one, however deep (`Value.mem_text_iff`), and a reader of
the text cannot tell such a line from one that was not in the value.
-/
import Mathlib.Logic.Basic
import WorkspaceAudit.Proofs.Text.Digits
import WorkspaceAudit.Toml.Printer

namespace WorkspaceAudit.Toml

/-! ### Numbers -/

theorem not_mem_replicate_zero (n : Nat) : '\n' ∉ List.replicate n '0' := by
  intro h
  exact absurd (isDigit_of_mem_zeros h) (by decide)

theorem isDigit_of_mem_padded {width n : Nat} {c : Char} (h : c ∈ padded width n) : c.isDigit := by
  rw [padded] at h
  rcases List.mem_append.mp h with h | h
  · exact isDigit_of_mem_zeros h
  · exact isDigit_of_mem_toDigits h

/-- Zeros at the end are left out, and nothing else. -/
theorem mem_of_mem_trimmed {cs : List Char} {c : Char}
    (h : c ∈ (cs.reverse.dropWhile (· == '0')).reverse) : c ∈ cs := by
  have hsuffix := (List.dropWhile_suffix (· == '0') (l := cs.reverse)).subset
  exact List.mem_reverse.mp (hsuffix (List.mem_reverse.mp h))

theorem not_mem_positional (d : Decimal) : '\n' ∉ d.positional := by
  have hdigits : '\n' ∉ d.pointed.1 := by
    rw [Decimal.pointed]
    intro h
    exact not_mem_toDigits rfl d.digits (mem_of_mem_trimmed h)
  have hzeros : ∀ n, '\n' ∉ List.replicate n '0' := not_mem_replicate_zero
  have htake : ∀ n, '\n' ∉ d.pointed.1.take n := fun n h => hdigits (List.mem_of_mem_take h)
  have hdrop : ∀ n, '\n' ∉ d.pointed.1.drop n := fun n h => hdigits (List.mem_of_mem_drop h)
  rw [Decimal.positional]
  generalize d.pointed = pointed at hdigits htake hdrop ⊢
  obtain ⟨cs, point⟩ := pointed
  dsimp only at hdigits htake hdrop ⊢
  split
  · simp [hzeros, hdigits]
  · split
    · simp [hzeros, hdigits]
    · simp [htake, hdrop]

theorem not_mem_floatText (x : Binary64) : '\n' ∉ floatText x := by
  have hsign : ∀ negative : Bool, '\n' ∉ (if negative then ['-'] else []) := by decide
  cases x with
  | nan => decide
  | infinite negative => cases negative <;> decide
  | finite negative m e =>
    have hdigits := not_mem_positional (Decimal.shortest m e)
    rw [floatText]
    intro h
    rcases List.mem_append.mp h with h | h
    · exact hsign negative h
    · split at h
      · revert h
        decide
      · split at h
        · simp [hdigits] at h
        · exact hdigits h

theorem not_mem_integer (n : Int) : '\n' ∉ (toString n).toList := by
  cases n with
  | ofNat n =>
    show '\n' ∉ (Nat.repr n).toList
    rw [Nat.toList_repr]
    exact not_mem_toDigits rfl n
  | negSucc n =>
    show '\n' ∉ ("-" ++ Nat.repr (n + 1)).toList
    rw [String.toList_append, Nat.toList_repr]
    simp [not_mem_toDigits]

/-! ### Dates and times -/

/-- The signs between the digits of a date or time. -/
def dateSigns : List Char :=
  ['-', ':', '.', 'T', 'Z', '+']

theorem Date.mem_text {d : Date} {c : Char} (h : c ∈ d.text) : c.isDigit ∨ c ∈ dateSigns := by
  rw [Date.text] at h
  simp only [List.mem_append, List.mem_cons] at h
  rcases h with (h | rfl | h) | rfl | h
  · exact .inl (isDigit_of_mem_padded h)
  · exact .inr (by decide)
  · exact .inl (isDigit_of_mem_padded h)
  · exact .inr (by decide)
  · exact .inl (isDigit_of_mem_padded h)

theorem Time.mem_text {t : Time} {c : Char} (h : c ∈ t.text) : c.isDigit ∨ c ∈ dateSigns := by
  rw [Time.text] at h
  simp only [List.mem_append, List.mem_cons] at h
  rcases h with ((h | rfl | h) | rfl | h) | h
  · exact .inl (isDigit_of_mem_padded h)
  · exact .inr (by decide)
  · exact .inl (isDigit_of_mem_padded h)
  · exact .inr (by decide)
  · exact .inl (isDigit_of_mem_padded h)
  · split at h
    · cases h
    · rcases List.mem_cons.mp h with rfl | h
      · exact .inr (by decide)
      · exact .inl (isDigit_of_mem_padded (mem_of_mem_trimmed h))

theorem Offset.mem_text {o : Offset} {c : Char} (h : c ∈ o.text) : c.isDigit ∨ c ∈ dateSigns := by
  cases o with
  | zulu =>
    obtain rfl := List.mem_singleton.mp h
    exact .inr (by decide)
  | minutes east =>
    rw [Offset.text] at h
    simp only [List.cons_append, List.mem_append, List.mem_cons] at h
    rcases h with rfl | h | rfl | h
    · exact .inr (by split <;> decide)
    · exact .inl (isDigit_of_mem_padded h)
    · exact .inr (by decide)
    · exact .inl (isDigit_of_mem_padded h)

/-- A date or time is written in digits and the signs between them. -/
theorem Datetime.mem_text {d : Datetime} {c : Char} (h : c ∈ d.text) :
    c.isDigit ∨ c ∈ dateSigns := by
  cases d with
  | date d => exact Date.mem_text h
  | time t => exact Time.mem_text h
  | dateTime d t =>
    rw [Datetime.text] at h
    simp only [List.mem_append, List.mem_cons] at h
    rcases h with h | rfl | h
    · exact Date.mem_text h
    · exact .inr (by decide)
    · exact Time.mem_text h
  | instant d t o =>
    rw [Datetime.text] at h
    simp only [List.mem_append, List.mem_cons] at h
    rcases h with (h | rfl | h) | h
    · exact Date.mem_text h
    · exact .inr (by decide)
    · exact Time.mem_text h
    · exact Offset.mem_text h

theorem not_mem_datetime (d : Datetime) : '\n' ∉ d.text := by
  intro h
  rcases Datetime.mem_text h with h | h
  · cases h
  · revert h
    decide

/-! ### Keys and strings -/

/-- A character that is escaped is written without line feeds. -/
theorem not_mem_escapeChar (c : Char) : '\n' ∉ escapeChar c := by
  have hcode : ∀ n < 128, '\n' ∉ '\\' :: 'u' :: hexFour n := by decide +kernel
  by_cases hfeed : c = '\n'
  · subst hfeed
    decide
  unfold escapeChar
  repeat' split
  all_goals try decide
  · next hcontrol =>
    apply hcode
    simp only [isControl, Bool.or_eq_true, decide_eq_true_eq, beq_iff_eq] at hcontrol
    omega
  · simp [Ne.symm hfeed]

theorem not_mem_basicText (cs : List Char) : '\n' ∉ basicText cs := by
  rw [basicText]
  simp [not_mem_escapeChar]

theorem not_mem_keyText (key : String) : '\n' ∉ keyText key := by
  unfold keyText
  dsimp only
  split
  · -- a line feed is no character of a bare key
    next hbare =>
    intro h
    simp only [isBareKey, Bool.and_eq_true, List.all_eq_true] at hbare
    have hchar := hbare.2 _ h
    revert hchar
    decide
  · split
    · next hplain =>
      intro h
      simp only [Bool.and_eq_true, List.all_eq_true] at hplain
      have hin : '\n' ∈ key.toList := by simpa using h
      have hchar := hplain.1.1 _ hin
      revert hchar
      decide
    · exact not_mem_basicText _

/-- Between triple double quotes a line feed stands where the string has one. -/
theorem mem_blockBody_iff (row : Nat) (cs : List Char) : '\n' ∈ blockBody row cs ↔ '\n' ∈ cs := by
  induction cs generalizing row with
  | nil => simp [blockBody]
  | cons c cs ih =>
    rw [blockBody]
    by_cases hquote : c = '"'
    · subst hquote
      rw [if_pos rfl]
      split <;> simp [ih]
    · rw [if_neg hquote]
      by_cases hfeed : c = '\n'
      · subst hfeed
        simp
      · rw [if_neg hfeed]
        simp [not_mem_escapeChar, ih, Ne.symm hfeed]

/-- A block of several lines has line feeds, whatever is in it. -/
theorem mem_blockText_iff {quote : Char} (hquote : quote ≠ '\n') {lines : Bool}
    {body : List Char} (h : '\n' ∈ body → lines = true) :
    '\n' ∈ blockText quote lines body ↔ lines = true := by
  have hquotes : '\n' ∉ List.replicate 3 quote := by
    intro hin
    exact hquote (List.eq_of_mem_replicate hin).symm
  rw [blockText]
  cases lines with
  | true => simp
  | false =>
    have hbody : '\n' ∉ body := fun hin => Bool.false_ne_true (h hin)
    simp [hbody, hquote.symm]

/-- **A string is written on one line** if it has no line feed, and only then. -/
theorem mem_stringText_iff (cs : List Char) : '\n' ∈ stringText cs ↔ '\n' ∈ cs := by
  have hlines : cs.contains '\n' = true ↔ '\n' ∈ cs := by simp
  have hdouble : '\n' ∈ blockText '"' (cs.contains '\n') (blockBody 0 cs) ↔ '\n' ∈ cs := by
    rw [mem_blockText_iff (by decide), hlines]
    rw [mem_blockBody_iff, hlines]
    exact id
  have hsingle : '\n' ∈ blockText '\x27' (cs.contains '\n') cs ↔ '\n' ∈ cs := by
    rw [mem_blockText_iff (by decide) hlines.mpr, hlines]
  unfold stringText
  dsimp only
  split
  · -- plain double quotes
    next h =>
    simp only [Bool.and_eq_true, Bool.not_eq_true'] at h
    have hnone : '\n' ∉ cs := by simpa using h.2
    exact iff_of_false (not_mem_basicText cs) hnone
  split
  · -- single quotes
    simp
  split
  · exact hdouble
  split
  · exact hsingle
  split
  · exact hdouble
  · next h =>
    have hnone : '\n' ∉ cs := by simpa using h
    exact iff_of_false (not_mem_basicText cs) hnone

/-! ### Values -/

/-- The string stands in the value: as the value itself, or in an item or under
a key of it. -/
inductive Value.Inside (s : String) : Value → Prop
  | string : Inside s (.string s)
  | item {vs : List Value} {v : Value} : v ∈ vs → Inside s v → Inside s (.array vs)
  | field {fs : List (String × Value)} {k : String} {v : Value} :
      (k, v) ∈ fs → Inside s v → Inside s (.table fs)

/-- Some string inside the value has a line feed. -/
def Value.Broken (v : Value) : Prop :=
  ∃ s, v.Inside s ∧ '\n' ∈ s.toList

theorem Value.broken_string_iff {s : String} : (Value.string s).Broken ↔ '\n' ∈ s.toList := by
  constructor
  · rintro ⟨s', hinside, hfeed⟩
    cases hinside
    exact hfeed
  · exact fun hfeed => ⟨s, .string, hfeed⟩

theorem Value.broken_array_iff {vs : List Value} :
    (Value.array vs).Broken ↔ ∃ v ∈ vs, v.Broken := by
  constructor
  · rintro ⟨s, hinside, hfeed⟩
    cases hinside with
    | item hv hinside => exact ⟨_, hv, s, hinside, hfeed⟩
  · rintro ⟨v, hv, s, hinside, hfeed⟩
    exact ⟨s, .item hv hinside, hfeed⟩

theorem Value.broken_table_iff {fs : List (String × Value)} :
    (Value.table fs).Broken ↔ ∃ f ∈ fs, f.2.Broken := by
  constructor
  · rintro ⟨s, hinside, hfeed⟩
    cases hinside with
    | field hv hinside => exact ⟨_, hv, s, hinside, hfeed⟩
  · rintro ⟨⟨k, v⟩, hv, s, hinside, hfeed⟩
    exact ⟨s, .field hv hinside, hfeed⟩

theorem mem_commaSeparated_iff {ts : List (List Char)} :
    '\n' ∈ commaSeparated ts ↔ ∃ t ∈ ts, '\n' ∈ t := by
  induction ts with
  | nil => simp [commaSeparated]
  | cons t ts ih =>
    cases ts with
    | nil => simp [commaSeparated]
    | cons t' ts =>
      have hrest : '\n' ∈ commaSeparated (t :: t' :: ts) ↔
          '\n' ∈ t ∨ '\n' ∈ commaSeparated (t' :: ts) := by
        rw [commaSeparated]
        · simp
        · simp
      rw [hrest, ih]
      simp

theorem Value.texts_eq (vs : List Value) : Value.texts vs = vs.map Value.text := by
  induction vs with
  | nil => rw [Value.texts, List.map_nil]
  | cons v vs ih => rw [Value.texts, ih, List.map_cons]

theorem Value.fieldTexts_eq (fs : List (String × Value)) :
    Value.fieldTexts fs = fs.map fun f => keyText f.1 ++ ' ' :: '=' :: ' ' :: f.2.text := by
  induction fs with
  | nil => rw [Value.fieldTexts, List.map_nil]
  | cons f fs ih => rw [Value.fieldTexts, ih, List.map_cons]

theorem Value.mem_array_text_iff {vs : List Value} :
    '\n' ∈ (Value.array vs).text ↔ ∃ v ∈ vs, '\n' ∈ v.text := by
  have hitems : '\n' ∈ commaSeparated (Value.texts vs) ↔ ∃ v ∈ vs, '\n' ∈ v.text := by
    rw [mem_commaSeparated_iff, Value.texts_eq]
    simp only [List.mem_map, exists_exists_and_eq_and]
  rw [Value.text, ← hitems]
  simp

theorem Value.mem_table_text_iff {fs : List (String × Value)} :
    '\n' ∈ (Value.table fs).text ↔ ∃ f ∈ fs, '\n' ∈ f.2.text := by
  -- the keys and all that stands around them are without line feeds
  have hfields : '\n' ∈ commaSeparated (Value.fieldTexts fs) ↔ ∃ f ∈ fs, '\n' ∈ f.2.text := by
    rw [mem_commaSeparated_iff, Value.fieldTexts_eq]
    simp only [List.mem_map, exists_exists_and_eq_and]
    simp [not_mem_keyText]
  rw [Value.text, ← hfields]
  split
  · next hnone =>
    rw [hnone]
    decide
  · simp

mutual

/-- **The text of a value has a line feed** if a string inside it has one, and
only then. -/
theorem Value.mem_text_iff : ∀ v : Value, '\n' ∈ v.text ↔ v.Broken
  | .string s => by
    rw [Value.text, mem_stringText_iff, Value.broken_string_iff]
  | .integer n => by
    rw [Value.text]
    refine iff_of_false (not_mem_integer n) ?_
    rintro ⟨s, ⟨⟩, -⟩
  | .float x => by
    rw [Value.text]
    refine iff_of_false (not_mem_floatText x) ?_
    rintro ⟨s, ⟨⟩, -⟩
  | .boolean b => by
    refine iff_of_false ?_ ?_
    · cases b <;> decide
    · rintro ⟨s, ⟨⟩, -⟩
  | .datetime d => by
    rw [Value.text]
    refine iff_of_false (not_mem_datetime d) ?_
    rintro ⟨s, ⟨⟩, -⟩
  | .array vs => by
    rw [Value.mem_array_text_iff, Value.broken_array_iff]
    exact exists_congr fun v => and_congr_right fun hv => Value.mem_item_text_iff vs v hv
  | .table fs => by
    rw [Value.mem_table_text_iff, Value.broken_table_iff]
    exact exists_congr fun f => and_congr_right fun hf => Value.mem_field_text_iff fs f hf

theorem Value.mem_item_text_iff : ∀ (vs : List Value) (v : Value), v ∈ vs →
    ('\n' ∈ v.text ↔ v.Broken)
  | [], _, h => by cases h
  | w :: vs, v, h => by
    rcases List.mem_cons.mp h with h | h
    · rw [h]
      exact Value.mem_text_iff w
    · exact Value.mem_item_text_iff vs v h

theorem Value.mem_field_text_iff : ∀ (fs : List (String × Value)) (f : String × Value),
    f ∈ fs → ('\n' ∈ f.2.text ↔ f.2.Broken)
  | [], _, h => by cases h
  | (k, w) :: fs, f, h => by
    rcases List.mem_cons.mp h with h | h
    · rw [h]
      exact Value.mem_text_iff w
    · exact Value.mem_field_text_iff fs f h

end

/-- A value that stands alone has no more line feeds than within another. -/
theorem Value.mem_aloneText_iff (v : Value) : '\n' ∈ v.aloneText ↔ v.Broken := by
  cases v with
  | datetime d =>
    rw [Value.aloneText]
    refine iff_of_false ?_ ?_
    · rw [Value.mem_text_iff, Value.broken_table_iff]
      simp [Value.broken_string_iff, not_mem_datetime]
    · rintro ⟨s, ⟨⟩, -⟩
  | _ => exact Value.mem_text_iff _

end WorkspaceAudit.Toml

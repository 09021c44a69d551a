/-
WorkspaceAudit/Proofs/Json/Writing.lean

What is written says what it was written for.

A value is a text of that value, on one line (`Value.text_compact`) and on lines of
its own (`Value.text_pretty`), whatever follows it: each character of a string is
escaped as the grammar allows, and numbers are written without needless zeros.  The
parts of lists and objects have commas between them, and white space of one sort
after each comma (`listed_joined`).
-/
import Mathlib.Data.List.Forall2
import WorkspaceAudit.Json.Value
import WorkspaceAudit.Proofs.Json.Strings
import WorkspaceAudit.Proofs.Text.Digits

namespace WorkspaceAudit.Json

/-! ### Values as data -/

mutual

/-- The value that a text of it says. -/
def Value.toDatum : Value → Datum
  | .null => .null
  | .number n => .number (numberText n)
  | .string x => .string x
  | .array vs => .array (Value.toItems vs)
  | .object ms => .object (Value.toMembers ms)

/-- The items of an array. -/
def Value.toItems : List Value → List Datum
  | [] => []
  | v :: vs => v.toDatum :: Value.toItems vs

/-- The members of an object. -/
def Value.toMembers : List (String × Value) → List (String × Datum)
  | [] => []
  | (k, v) :: ms => (k, v.toDatum) :: Value.toMembers ms

end

/-! ### Strings -/

theorem hexDigit_hexDigit {n : Nat} (h : n < 16) : HexDigit (hexDigit n) n := by
  have hvalues : ∀ n < 16, hexValue? (hexDigit n) = some n := by decide
  exact hexValue?_eq_some_iff.mp (hvalues n h)

theorem mem_shortEscapes {c e : Char} (h : shortEscape? c = some e) : (e, c) ∈ shortEscapes := by
  unfold shortEscape? at h
  (repeat' split at h) <;> first | (cases h; done) | (cases h; simp [shortEscapes, *])

/-- A character is escaped where it has to be. -/
theorem charText_escape (c : Char) (r : List Char) : CharText (escape c ++ r) c r := by
  rw [escape]
  rcases h : shortEscape? c with - | e
  · dsimp only
    split
    · next hcontrol =>
      -- the code has two digits, with two zeros before them
      have hfour : HexText ('0' :: '0' :: hexDigit (c.toNat / 16) :: hexDigit (c.toNat % 16) :: r)
          (((0 * 16 + 0) * 16 + c.toNat / 16) * 16 + c.toNat % 16) r :=
        .mk (hexDigit_hexDigit (n := 0) (by omega)) (hexDigit_hexDigit (n := 0) (by omega))
          (hexDigit_hexDigit (by omega)) (hexDigit_hexDigit (by omega))
      have hcode : ((0 * 16 + 0) * 16 + c.toNat / 16) * 16 + c.toNat % 16 = c.toNat := by omega
      rw [hcode] at hfour
      have hchar := CharText.numbered hfour (by omega)
      rwa [Char.ofNat_toNat] at hchar
    · next hplain =>
      refine .plain (Nat.not_lt.mp hplain) ?_ ?_
      · rintro rfl
        cases h
      · rintro rfl
        cases h
  · exact .short (mem_shortEscapes h)

theorem stringText_chars (cs r : List Char) :
    StringText (cs.flatMap escape ++ '"' :: r) cs r := by
  induction cs with
  | nil => exact .nil
  | cons c cs ih =>
    rw [List.flatMap_cons, List.append_assoc]
    exact .cons (charText_escape c _) ih

theorem stringText_append (x : String) (r : List Char) :
    stringText x ++ r = '"' :: (x.toList.flatMap escape ++ '"' :: r) := by
  rw [stringText, List.cons_append, List.append_assoc, List.singleton_append]

/-! ### Numbers -/

theorem numeral_numberText (n : Nat) : Numeral [] (numberText n) [] [] := by
  refine ⟨.inl rfl, ?_, .inl rfl, .inl rfl⟩
  have hdigits : Digits (numberText n) :=
    ⟨Nat.toDigits_ne_nil, fun d hd => isDigit_of_mem_toDigits hd⟩
  rcases Nat.eq_zero_or_pos n with rfl | hn
  · exact .inl rfl
  · exact .inr ⟨hdigits, head?_toDigits hn⟩

/-! ### Scalars -/

theorem text_number (n : Nat) (r : List Char) :
    Text (numberText n ++ r) (.number (numberText n)) r := by
  simpa using Text.number (r := r) (numeral_numberText n)

theorem text_string (x : String) (r : List Char) : Text (stringText x ++ r) (.string x) r := by
  rw [stringText_append]
  exact .string (stringText_chars x.toList r)

/-! ### Parts with commas between them -/

theorem blank_indent (depth : Nat) (r : List Char) : Blank (indent depth ++ r) r := by
  have hblanks : ∀ n, Blank (List.replicate n ' ' ++ r) r := by
    intro n
    induction n with
    | zero => exact .nil
    | succ n ih => exact .cons (by decide) ih
  exact .cons (by decide) (hblanks _)

section Joined

variable {α : Type} {P : List Char → α → List Char → Prop} {texts : List (List Char)} {as : List α}
  (h : List.Forall₂ (fun t a => ∀ r, P (t ++ r) a r) texts as)
include h

/-- Texts with commas between them, and the same white space after each comma, are
parts, up to where white space leads after the last one. -/
theorem listed_joined {join : List (List Char) → List Char} {gap : List Char}
    (hone : ∀ t, join [t] = t)
    (hmore : ∀ t t' ts, join (t :: t' :: ts) = t ++ ',' :: (gap ++ join (t' :: ts)))
    (hgap : ∀ r, Blank (gap ++ r) r) {first : Bool} {s r r' : List Char} (hr : Blank r r')
    (hs : texts ≠ [] → Lead first s (join texts ++ r)) (hnil : texts = [] → Blank s r') :
    Listed P first s as r' := by
  induction h generalizing first s with
  | nil => exact .nil (hnil rfl)
  | @cons t a texts as ht htexts ih =>
    have hlead := hs (List.cons_ne_nil t texts)
    cases texts with
    | nil =>
      rw [hone] at hlead
      exact .cons hlead (ht r) (ih (fun hne => absurd rfl hne) fun _ => hr)
    | cons t' texts =>
      rw [hmore, List.append_assoc, List.cons_append, List.append_assoc] at hlead
      exact .cons hlead (ht _) (ih (fun _ => .next .nil (hgap _)) nofun)

theorem listed_commas (r : List Char) : Listed P true (commas texts ++ r) as r := by
  have hmore : ∀ t t' ts, commas (t :: t' :: ts) = t ++ ',' :: ([] ++ commas (t' :: ts)) :=
    fun _ _ _ => rfl
  refine listed_joined h (fun _ => rfl) hmore (fun _ => .nil) .nil (fun _ => .first .nil) ?_
  rintro rfl
  exact .nil

theorem listed_lines (depth : Nat) (r : List Char) :
    Listed P true (lines depth texts ++ r) as r := by
  have hmore : ∀ t t' ts, lines.between depth (t :: t' :: ts) =
      t ++ ',' :: (indent (depth + 1) ++ lines.between depth (t' :: ts)) := fun _ _ _ => rfl
  refine listed_joined h (fun _ => rfl) hmore (blank_indent _) (blank_indent depth r) ?_ ?_
  · intro hne
    have hlines : lines depth texts =
        indent (depth + 1) ++ lines.between depth texts ++ indent depth := by
      cases texts with
      | nil => exact absurd rfl hne
      | cons t ts => rfl
    rw [hlines, List.append_assoc, List.append_assoc]
    exact .first (blank_indent _ _)
  · rintro rfl
    exact .nil

end Joined

/-! ### On one line -/

mutual

/-- **A value on one line says the value.** -/
theorem Value.text_compact : ∀ (v : Value) (r : List Char), Text (v.compact ++ r) v.toDatum r
  | .null, r => .null
  | .number n, r => by
    rw [Value.compact, Value.toDatum]
    exact text_number n r
  | .string x, r => by
    rw [Value.compact, Value.toDatum]
    exact text_string x r
  | .array vs, r => by
    rw [Value.compact, Value.toDatum, List.cons_append, List.append_assoc]
    exact .array (listed_commas (Value.forall₂_compactItems vs) _)
  | .object ms, r => by
    rw [Value.compact, Value.toDatum, List.cons_append, List.append_assoc]
    exact .object (listed_commas (Value.forall₂_compactMembers ms) _)

theorem Value.forall₂_compactItems : ∀ vs : List Value,
    List.Forall₂ (fun t v => ∀ r, Text (t ++ r) v r) (Value.compactItems vs) (Value.toItems vs)
  | [] => .nil
  | v :: vs => .cons v.text_compact (Value.forall₂_compactItems vs)

theorem Value.forall₂_compactMembers : ∀ ms : List (String × Value),
    List.Forall₂ (fun t m => ∀ r, Member Text (t ++ r) m r) (Value.compactMembers ms)
      (Value.toMembers ms)
  | [] => .nil
  | (k, v) :: ms => by
    refine .cons (fun r => ?_) (Value.forall₂_compactMembers ms)
    rw [List.append_assoc, stringText_append, List.cons_append]
    exact .mk (stringText_chars k.toList _) .nil .nil (v.text_compact r)

end

/-! ### On lines of their own -/

mutual

/-- **A value on lines of its own says the value.** -/
theorem Value.text_pretty : ∀ (v : Value) (depth : Nat) (r : List Char),
    Text (v.pretty depth ++ r) v.toDatum r
  | .null, _, r => .null
  | .number n, _, r => by
    rw [Value.pretty, Value.toDatum]
    exact text_number n r
  | .string x, _, r => by
    rw [Value.pretty, Value.toDatum]
    exact text_string x r
  | .array vs, depth, r => by
    rw [Value.pretty, Value.toDatum, List.cons_append, List.append_assoc]
    exact .array (listed_lines (Value.forall₂_prettyItems vs (depth + 1)) depth _)
  | .object ms, depth, r => by
    rw [Value.pretty, Value.toDatum, List.cons_append, List.append_assoc]
    exact .object (listed_lines (Value.forall₂_prettyMembers ms (depth + 1)) depth _)

theorem Value.forall₂_prettyItems : ∀ (vs : List Value) (depth : Nat),
    List.Forall₂ (fun t v => ∀ r, Text (t ++ r) v r) (Value.prettyItems depth vs)
      (Value.toItems vs)
  | [], _ => .nil
  | v :: vs, depth => .cons (v.text_pretty depth) (Value.forall₂_prettyItems vs depth)

theorem Value.forall₂_prettyMembers : ∀ (ms : List (String × Value)) (depth : Nat),
    List.Forall₂ (fun t m => ∀ r, Member Text (t ++ r) m r) (Value.prettyMembers depth ms)
      (Value.toMembers ms)
  | [], _ => .nil
  | (k, v) :: ms, depth => by
    refine .cons (fun r => ?_) (Value.forall₂_prettyMembers ms depth)
    rw [List.append_assoc, stringText_append, List.cons_append, List.cons_append]
    exact .mk (stringText_chars k.toList _) .nil (.cons (by decide) .nil) (v.text_pretty depth r)

end

/-! ### Whole texts -/

/-- A text of a value is a whole text that says it. -/
theorem says_of_text {cs : List Char} {v : Datum} (h : Text (cs ++ []) v []) :
    Says (String.ofList cs) v := by
  refine ⟨cs, [], ?_, ?_, .nil⟩
  · rw [String.toList_ofList]
    exact .nil
  · rwa [List.append_nil] at h

theorem Value.says_pretty (v : Value) : Says (String.ofList (v.pretty 0)) v.toDatum :=
  says_of_text (v.text_pretty 0 [])

theorem Value.says_compact (v : Value) : Says (String.ofList v.compact) v.toDatum :=
  says_of_text (v.text_compact [])

end WorkspaceAudit.Json

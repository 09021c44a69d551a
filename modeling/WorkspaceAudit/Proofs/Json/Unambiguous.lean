/-
WorkspaceAudit/Proofs/Json/Unambiguous.lean

A text says one value at most.

Where two texts of values start alike, they are the same text of the same value
(`Text.unique`), unless one is a number that goes on in the other: the grammar
lets `1` be read of `12`.  In a list, in an object and at the end of a text no
number goes on (`Ends`), so whole texts are unambiguous (`Says.unique`).

The induction is on the length: the parts of a list or an object are shorter than
it, and `Listed.unique` puts them together, for both alike.
-/
import WorkspaceAudit.Proofs.Json.Readers

namespace WorkspaceAudit.Json

/-! ### Where numbers end -/

/-- The characters of numbers. -/
def isNumeralChar (c : Char) : Bool :=
  c.isDigit || c == '-' || c == '+' || c == '.' || c == 'e' || c == 'E'

/-- What is left after a value: no number goes on there. -/
def Ends (r : List Char) : Prop :=
  ∀ c t, r = c :: t → isNumeralChar c = false

theorem ends_nil : Ends [] :=
  nofun

theorem ends_cons {c : Char} {t : List Char} (h : isNumeralChar c = false) : Ends (c :: t) := by
  rintro _ _ ⟨⟩
  exact h

theorem isNumeralChar_of_isDigit {c : Char} (h : c.isDigit = true) : isNumeralChar c = true := by
  rw [isNumeralChar, h]
  rfl

theorem Blank.ends {s r : List Char} (h : Blank s r) (hr : Ends r) : Ends s := by
  cases h with
  | nil => exact hr
  | cons hc _ =>
    refine ends_cons ?_
    simp only [List.mem_cons, List.not_mem_nil, or_false] at hc
    rcases hc with rfl | rfl | rfl | rfl <;> rfl

/-- All characters of a number are those of numbers. -/
theorem Numeral.isNumeralChar {sign whole fraction exponent : List Char}
    (h : Numeral sign whole fraction exponent) :
    ∀ c ∈ sign ++ whole ++ fraction ++ exponent, isNumeralChar c = true := by
  have hdigits : ∀ {ds}, Digits ds → ∀ c ∈ ds, Json.isNumeralChar c = true := fun h c hc =>
    isNumeralChar_of_isDigit (h.2 c hc)
  intro c hc
  simp only [List.mem_append] at hc
  rcases hc with ((hc | hc) | hc) | hc
  · rcases h.sign with rfl | rfl
    · cases hc
    · rw [List.mem_singleton.mp hc]
      rfl
  · rcases h.whole with rfl | ⟨hw, -⟩
    · rw [List.mem_singleton.mp hc]
      rfl
    · exact hdigits hw c hc
  · rcases h.fraction with rfl | ⟨ds, hds, rfl⟩
    · cases hc
    · rcases List.mem_cons.mp hc with rfl | hc
      · rfl
      · exact hdigits hds c hc
  · rcases h.exponent with rfl | ⟨e, he, below, hbelow, ds, hds, rfl⟩
    · cases hc
    · simp only [List.mem_cons, List.not_mem_nil, or_false] at he hbelow
      rcases List.mem_cons.mp hc with rfl | hc
      · rcases he with rfl | rfl <;> rfl
      rcases List.mem_append.mp hc with hc | hc
      · rcases hbelow with rfl | rfl | rfl
        · cases hc
        · rw [List.mem_singleton.mp hc]
          rfl
        · rw [List.mem_singleton.mp hc]
          rfl
      · exact hdigits hds c hc

/-- Characters that all pass a test, up to one that does not. -/
theorem takeWhile_append_of_ends {cs r : List Char} (hcs : ∀ c ∈ cs, isNumeralChar c = true)
    (hr : Ends r) : (cs ++ r).takeWhile isNumeralChar = cs := by
  have hnone : r.takeWhile isNumeralChar = [] := by
    rcases r with - | ⟨c, t⟩
    · rfl
    · rw [List.takeWhile_cons, hr c t rfl, if_neg (by simp)]
  rw [List.takeWhile_append_of_pos hcs, hnone, List.append_nil]

/-! ### The kinds of values -/

theorem Datum.Opens.eq_boolean {v : Datum} {b : Bool} (h : v.Opens (if b then 't' else 'f')) :
    v = .boolean b := by
  cases v with
  | boolean b' => cases b <;> cases b' <;> first | rfl | cases h
  | number => cases b <;> rcases h with h | h <;> cases h
  | _ => cases b <;> cases h

theorem Datum.Opens.eq_number {v : Datum} {c : Char} (h : v.Opens c)
    (hc : c = '-' ∨ c.isDigit = true) : ∃ lexeme, v = .number lexeme := by
  cases v with
  | number lexeme => exact ⟨lexeme, rfl⟩
  | boolean b => cases b <;> cases h <;> rcases hc with hc | hc <;> cases hc
  | _ => cases h; rcases hc with hc | hc <;> cases hc

theorem Text.of_boolean {s r : List Char} {b : Bool} (h : Text s (.boolean b) r) :
    s = (if b then "true" else "false").toList ++ r := by
  cases h
  rfl

/-- A number is told by the characters of numbers at the start of its text. -/
theorem Text.of_number {s r lexeme : List Char} (h : Text s (.number lexeme) r) (hr : Ends r) :
    lexeme = s.takeWhile isNumeralChar ∧ s = lexeme ++ r := by
  cases h with
  | number hn => exact ⟨(takeWhile_append_of_ends hn.isNumeralChar hr).symm, rfl⟩

/-! ### Parts -/

theorem StringText.unique {s cs cs' r r' : List Char} (h : StringText s cs r)
    (h' : StringText s cs' r') : cs = cs' ∧ r = r' := by
  rw [← String.toList_ofList (l := cs), ← string_eq_ok_iff] at h
  rw [← String.toList_ofList (l := cs'), ← string_eq_ok_iff, h] at h'
  simpa only [Except.ok.injEq, Prod.mk.injEq, String.ofList_inj] using h'

theorem Blank.unique {s t t' : List Char} {c c' : Char} (h : Blank s (c :: t))
    (h' : Blank s (c' :: t')) (hc : isSpace c = false) (hc' : isSpace c' = false) :
    c = c' ∧ t = t' := by
  rw [← List.cons.injEq, ← h.dropSpace_cons hc, ← h'.dropSpace_cons hc']

theorem Lead.unique {first : Bool} {s t t' : List Char} {c c' : Char} (h : Lead first s (c :: t))
    (h' : Lead first s (c' :: t')) (hc : isSpace c = false) (hc' : isSpace c' = false) :
    c = c' ∧ t = t' := by
  cases h with
  | first hb =>
    cases h' with
    | first hb' => exact hb.unique hb' hc hc'
  | next hb hb₁ =>
    cases h' with
    | next hb' hb₁' =>
      obtain ⟨-, rfl⟩ := hb.unique hb' (by decide) (by decide)
      exact hb₁.unique hb₁' hc hc'

/-- Where a list ends, no part of it stands. -/
theorem Lead.not_close {first : Bool} {s t t' : List Char} {c c' : Char}
    (h : Lead first s (c :: t)) (h' : Blank s (c' :: t')) (hc : isSpace c = false)
    (hc' : isSpace c' = false) (hcomma : c' ≠ ',') : c = c' := by
  cases h with
  | first hb => exact (hb.unique h' hc hc').1
  | next hb _ => exact absurd (hb.unique h' (by decide) hc').1.symm hcomma

section Listed

variable {α : Type} {P : List Char → α → List Char → Prop}

/-- After a part no number goes on. -/
theorem Listed.ends {s t : List Char} {as : List α} {c : Char}
    (h : Listed P false s as (c :: t)) (hc : isNumeralChar c = false) : Ends s := by
  cases h with
  | nil hb => exact hb.ends (ends_cons hc)
  | cons hl _ _ =>
    cases hl with
    | next hb _ => exact hb.ends (ends_cons rfl)

/-- Parts that are told by their texts make a list that is, up to the bracket that
ends it. -/
theorem Listed.unique {c : Char} (hc : c = ']' ∨ c = '\x7d') {n : Nat}
    (hopens : ∀ {s a r}, P s a r → ∃ d t, s = d :: t ∧ isSpace d = false ∧ d ≠ c)
    (hshorter : ∀ {s a r}, P s a r → r.length < s.length)
    (hunique : ∀ {s a a' r r'}, s.length ≤ n → P s a r → P s a' r' → Ends r → Ends r' →
      a = a' ∧ r = r')
    {first : Bool} {s t t' : List Char} {as as' : List α} (hn : s.length ≤ n)
    (h : Listed P first s as (c :: t)) (h' : Listed P first s as' (c :: t')) :
    as = as' ∧ t = t' := by
  obtain ⟨hspace, hcomma, hnumeral⟩ : isSpace c = false ∧ c ≠ ',' ∧ isNumeralChar c = false := by
    rcases hc with rfl | rfl <;> decide
  induction as generalizing first s as' with
  | nil =>
    cases h with
    | nil hb =>
      cases h' with
      | nil hb' => exact ⟨rfl, (hb.unique hb' hspace hspace).2⟩
      | cons hl' ha' _ =>
        obtain ⟨d, u, rfl, hd, hdc⟩ := hopens ha'
        exact absurd (hl'.not_close hb hd hspace hcomma) hdc
  | cons a as ih =>
    cases h with
    | cons hl ha has =>
      obtain ⟨d, u, rfl, hd, hdc⟩ := hopens ha
      cases h' with
      | nil hb' => exact absurd (hl.not_close hb' hd hspace hcomma) hdc
      | cons hl' ha' has' =>
        obtain ⟨d', u', rfl, hd', -⟩ := hopens ha'
        obtain ⟨rfl, rfl⟩ := hl.unique hl' hd hd'
        have hle := Nat.le_trans hl.length_le hn
        obtain ⟨rfl, rfl⟩ := hunique hle ha ha' (has.ends hnumeral) (has'.ends hnumeral)
        obtain ⟨rfl, rfl⟩ := ih (Nat.le_trans (Nat.le_of_lt (hshorter ha)) hle) has has'
        exact ⟨rfl, rfl⟩

end Listed

theorem Member.unique {n : Nat}
    (hunique : ∀ {s v v' r r'}, s.length ≤ n → Text s v r → Text s v' r' → Ends r → Ends r' →
      v = v' ∧ r = r')
    {s r r' : List Char} {m m' : String × Datum} (hn : s.length ≤ n) (h : Member Text s m r)
    (h' : Member Text s m' r') (hr : Ends r) (hr' : Ends r') : m = m' ∧ r = r' := by
  cases h with
  | mk hkey hcolon hb hv =>
    cases h' with
    | mk hkey' hcolon' hb' hv' =>
      obtain ⟨hkeys, rfl⟩ := hkey.unique hkey'
      obtain ⟨-, rfl⟩ := hcolon.unique hcolon' (by decide) (by decide)
      obtain ⟨c, t, rfl, hc⟩ := hv.opens
      obtain ⟨c', t', rfl, hc'⟩ := hv'.opens
      obtain ⟨rfl, rfl⟩ := hb.unique hb' hc.not_isSpace hc'.not_isSpace
      have hle : (c :: t).length ≤ n := by
        have hlt := hkey.shorter
        have hle₁ := hcolon.length_le
        have hle₂ := hb.length_le
        simp only [List.length_cons] at hn hle₁ hle₂ ⊢
        omega
      obtain ⟨rfl, rfl⟩ := hunique hle hv hv' hr hr'
      rw [String.toList_inj.mp hkeys]
      exact ⟨rfl, rfl⟩

/-! ### Texts -/

theorem Member.shorter {s r : List Char} {m : String × Datum} (h : Member Text s m r) :
    r.length < s.length := by
  cases h with
  | mk hkey hcolon hb hv => exact member_shorter hkey hcolon hb hv.shorter

/-- Texts that start alike are the same. -/
theorem Text.unique {s r r' : List Char} {v v' : Datum} (h : Text s v r) (h' : Text s v' r')
    (hr : Ends r) (hr' : Ends r') : v = v' ∧ r = r' := by
  induction hn : s.length using Nat.strongRecOn generalizing s r r' v v' with
  | ind n ih =>
    -- the first character tells the kind of both values
    obtain ⟨c, t, rfl, hc⟩ := h.opens
    obtain ⟨c', t', hs, hc'⟩ := h'.opens
    obtain ⟨rfl, rfl⟩ := List.cons.inj hs
    have hshorter : ∀ {s v v' r r'}, s.length ≤ t.length → Text s v r → Text s v' r' → Ends r →
        Ends r' → v = v' ∧ r = r' := fun hle hv hv' hr hr' =>
      ih _ (by rw [← hn, List.length_cons]; omega) hv hv' hr hr' rfl
    cases v with
    | null =>
      cases hc
      obtain rfl := hc'.eq_null
      have heq := h.of_null.symm.trans h'.of_null
      exact ⟨rfl, List.append_cancel_left heq⟩
    | boolean b =>
      cases hc
      obtain rfl := hc'.eq_boolean
      have heq := h.of_boolean.symm.trans h'.of_boolean
      exact ⟨rfl, List.append_cancel_left heq⟩
    | number lexeme =>
      obtain ⟨lexeme', rfl⟩ := hc'.eq_number hc
      obtain ⟨hlexeme, hs⟩ := h.of_number hr
      obtain ⟨hlexeme', hs'⟩ := h'.of_number hr'
      obtain rfl := hlexeme.trans hlexeme'.symm
      exact ⟨rfl, List.append_cancel_left (hs.symm.trans hs')⟩
    | string x =>
      cases hc
      obtain ⟨x', rfl⟩ := hc'.eq_string
      obtain ⟨u, hu, hx⟩ := h.of_string
      obtain ⟨u', hu', hx'⟩ := h'.of_string
      cases hu
      cases hu'
      obtain ⟨heq, rfl⟩ := hx.unique hx'
      rw [String.toList_inj.mp heq]
      exact ⟨rfl, rfl⟩
    | array vs =>
      cases hc
      obtain ⟨vs', rfl⟩ := hc'.eq_array
      obtain ⟨u, hu, hvs⟩ := h.of_array
      obtain ⟨u', hu', hvs'⟩ := h'.of_array
      cases hu
      cases hu'
      have hopens : ∀ {s v r}, Text s v r → ∃ d t, s = d :: t ∧ isSpace d = false ∧ d ≠ ']' := by
        intro s v r hv
        obtain ⟨d, u, hd, ho⟩ := hv.opens
        exact ⟨d, u, hd, ho.not_isSpace, ho.ne_close⟩
      obtain ⟨rfl, rfl⟩ := Listed.unique (.inl rfl) hopens Text.shorter hshorter (Nat.le_refl _)
        hvs hvs'
      exact ⟨rfl, rfl⟩
    | object ms =>
      cases hc
      obtain ⟨ms', rfl⟩ := hc'.eq_object
      obtain ⟨u, hu, hms⟩ := h.of_object
      obtain ⟨u', hu', hms'⟩ := h'.of_object
      cases hu
      cases hu'
      have hopens : ∀ {s m r}, Member Text s m r →
          ∃ d t, s = d :: t ∧ isSpace d = false ∧ d ≠ '\x7d' := by
        rintro _ _ _ ⟨⟩
        exact ⟨'"', _, rfl, by decide, by decide⟩
      obtain ⟨rfl, rfl⟩ := Listed.unique (.inr rfl) hopens Member.shorter (Member.unique hshorter)
        (Nat.le_refl _) hms hms'
      exact ⟨rfl, rfl⟩

/-- **A text says one value at most.** -/
theorem Says.unique {text : String} {v v' : Datum} (h : Says text v) (h' : Says text v') :
    v = v' := by
  obtain ⟨s, r, hb, hv, hr⟩ := h
  obtain ⟨s', r', hb', hv', hr'⟩ := h'
  obtain ⟨c, t, rfl, hc⟩ := hv.opens
  obtain ⟨c', t', rfl, hc'⟩ := hv'.opens
  obtain ⟨rfl, rfl⟩ := hb.unique hb' hc.not_isSpace hc'.not_isSpace
  exact (hv.unique hv' (hr.ends ends_nil) (hr'.ends ends_nil)).1

end WorkspaceAudit.Json

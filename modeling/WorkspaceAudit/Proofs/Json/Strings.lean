/-
WorkspaceAudit/Proofs/Json/Strings.lean

Strings are read as the grammar has them.

Each reader of a part of a string accepts exactly the texts of that part, with
what they stand for (`hexFour_eq_ok_iff`, `escaped_eq_ok_iff`), and so does the
reader of a string (`string_eq_ok_iff`).  The number that bounds its rounds is
the length of the text, of which every character takes something.
-/
import WorkspaceAudit.Proofs.Json.Grammar

namespace WorkspaceAudit.Json

/-! ### Digits -/

theorem hexValue?_eq_some_iff {c : Char} {k : Nat} : hexValue? c = some k ↔ HexDigit c k := by
  -- the three ranges lie apart
  have hlow : 'a' ≤ c → c.isDigit = false := by
    intro ha
    rw [Bool.eq_false_iff]
    intro hdigit
    simp only [Char.isDigit, Bool.and_eq_true, decide_eq_true_eq] at hdigit
    exact absurd (Char.le_trans ha hdigit.2) (by decide)
  have hup : 'A' ≤ c → c.isDigit = false := by
    intro ha
    rw [Bool.eq_false_iff]
    intro hdigit
    simp only [Char.isDigit, Bool.and_eq_true, decide_eq_true_eq] at hdigit
    exact absurd (Char.le_trans ha hdigit.2) (by decide)
  have hcase : c ≤ 'F' → ¬ 'a' ≤ c := fun hf ha => absurd (Char.le_trans ha hf) (by decide)
  unfold hexValue?
  constructor
  · intro h
    split at h
    · next hc =>
      cases h
      simp only [Char.isDigit, Bool.and_eq_true, decide_eq_true_eq] at hc
      exact .digit hc.1 hc.2
    split at h
    · next hc =>
      cases h
      simp only [Bool.and_eq_true, decide_eq_true_eq] at hc
      exact .lower hc.1 hc.2
    split at h
    · next hc =>
      cases h
      simp only [Bool.and_eq_true, decide_eq_true_eq] at hc
      exact .upper hc.1 hc.2
    · cases h
  · rintro (⟨h, h'⟩ | ⟨h, h'⟩ | ⟨h, h'⟩)
    · have hdigit : c.isDigit = true := by
        simp only [Char.isDigit, Bool.and_eq_true, decide_eq_true_eq]
        exact ⟨h, h'⟩
      rw [hdigit, if_pos rfl]
    · rw [hlow h, if_neg (by simp), if_pos (by simp [h, h'])]
    · rw [hup h, if_neg (by simp), if_neg (by simp [hcase h']), if_pos (by simp [h, h'])]

theorem HexDigit.utf8Size {c : Char} {k : Nat} (h : HexDigit c k) : c.utf8Size = 1 := by
  have hle : c ≤ 'f' := by
    cases h with
    | digit _ h => exact Char.le_trans h (by decide)
    | lower _ h => exact h
    | upper _ h => exact Char.le_trans h (by decide)
  rw [Char.utf8Size, if_pos]
  exact UInt32.le_trans hle (by decide)

/-- Four digits are read, whatever follows them. -/
theorem hexFour_eq_ok_iff {s r : List Char} {n : Nat} :
    hexFour s = .ok (n, r) ↔ HexText s n r := by
  constructor
  · intro h
    unfold hexFour at h
    split at h
    · cases h
    split at h
    · next a b c d rest _ =>
      split at h
      · next ha hb hc hd =>
        cases h
        exact .mk (hexValue?_eq_some_iff.mp ha) (hexValue?_eq_some_iff.mp hb)
          (hexValue?_eq_some_iff.mp hc) (hexValue?_eq_some_iff.mp hd)
      · cases h
    · cases h
  · rintro ⟨ha, hb, hc, hd⟩
    have hsize : ∀ {a b c d : Char} (t : List Char), a.utf8Size = 1 → b.utf8Size = 1 →
        c.utf8Size = 1 → d.utf8Size = 1 →
        Text.byteSize ((a :: b :: c :: d :: t).take 4) = 4 := by
      intro a b c d t h₁ h₂ h₃ h₄
      simp [Text.byteSize, h₁, h₂, h₃, h₄]
    rw [hexFour, if_neg (by rw [hsize _ ha.utf8Size hb.utf8Size hc.utf8Size hd.utf8Size]; decide)]
    simp only [hexValue?_eq_some_iff.mpr ha, hexValue?_eq_some_iff.mpr hb,
      hexValue?_eq_some_iff.mpr hc, hexValue?_eq_some_iff.mpr hd]

/-! ### Escapes -/

theorem escapeOf?_eq_some_iff {e c : Char} : escapeOf? e = some c ↔ (e, c) ∈ shortEscapes := by
  constructor
  · intro h
    unfold escapeOf? at h
    -- each letter that is accepted stands in the table
    (repeat' split at h) <;> first | (cases h; done) | (cases h; simp [shortEscapes, *])
  · intro h
    simp only [shortEscapes, List.mem_cons, List.not_mem_nil, or_false, Prod.mk.injEq] at h
    rcases h with ⟨rfl, rfl⟩ | ⟨rfl, rfl⟩ | ⟨rfl, rfl⟩ | ⟨rfl, rfl⟩ | ⟨rfl, rfl⟩ | ⟨rfl, rfl⟩ |
      ⟨rfl, rfl⟩ | ⟨rfl, rfl⟩ <;> rfl

theorem isLowHalf_iff {n : Nat} : isLowHalf n = true ↔ 0xDC00 ≤ n ∧ n ≤ 0xDFFF := by
  simp [isLowHalf]

theorem isHighHalf_iff {n : Nat} : isHighHalf n = true ↔ 0xD800 ≤ n ∧ n ≤ 0xDBFF := by
  simp [isHighHalf]

theorem isLowHalf_eq_false {n : Nat} (h : n < 0xDC00 ∨ 0xDFFF < n) : isLowHalf n = false := by
  rw [Bool.eq_false_iff, ne_eq, isLowHalf_iff]
  omega

theorem isHighHalf_eq_false {n : Nat} (h : n < 0xD800 ∨ 0xDBFF < n) : isHighHalf n = false := by
  rw [Bool.eq_false_iff, ne_eq, isHighHalf_iff]
  omega

/-- A numbered escape is read alone, or as the first of a pair. -/
theorem numbered_eq_ok_iff {s r : List Char} {c : Char} :
    numbered s = .ok (c, r) ↔ CharText ('\\' :: 'u' :: s) c r := by
  constructor
  · intro h
    unfold numbered at h
    rcases hs : hexFour s with f | ⟨n, r₁⟩
    · rw [hs] at h
      cases h
    rw [hs] at h
    have hn : HexText s n r₁ := hexFour_eq_ok_iff.mp hs
    simp only [bind, Except.bind] at h
    split at h
    · cases h
    next hlow =>
    rw [isLowHalf_iff] at hlow
    split at h
    · next hhigh =>
      rw [isHighHalf_iff] at hhigh
      split at h
      · cases h
      · split at h
        · cases h
        · next r₂ =>
          rcases hs' : hexFour r₂ with f | ⟨m, r₃⟩
          · rw [hs'] at h
            cases h
          rw [hs'] at h
          have hm : HexText r₂ m r₃ := hexFour_eq_ok_iff.mp hs'
          dsimp only at h
          split at h
          · next hlow' =>
            rw [isLowHalf_iff] at hlow'
            simp only [Except.ok.injEq, Prod.mk.injEq] at h
            obtain ⟨rfl, rfl⟩ := h
            exact .pair hn hm hhigh.1 hhigh.2 hlow'.1 hlow'.2
          · cases h
        · cases h
      · cases h
    · next hhigh =>
      rw [isHighHalf_iff] at hhigh
      cases h
      exact .numbered hn (by omega)
  · intro h
    unfold numbered
    cases h with
    | plain _ _ h => exact absurd rfl h
    | short he => simp [shortEscapes] at he
    | @numbered n s r hn hbeyond =>
      have hlow : isLowHalf n = false := isLowHalf_eq_false (by omega)
      have hhigh : isHighHalf n = false := isHighHalf_eq_false (by omega)
      simp only [hexFour_eq_ok_iff.mpr hn, bind, Except.bind, hlow, hhigh]
      rfl
    | @pair n m s s' r hn hm h₁ h₂ h₃ h₄ =>
      have hlow : isLowHalf n = false := isLowHalf_eq_false (by omega)
      simp only [hexFour_eq_ok_iff.mpr hn, hexFour_eq_ok_iff.mpr hm, bind, Except.bind, hlow,
        isHighHalf_iff.mpr ⟨h₁, h₂⟩, isLowHalf_iff.mpr ⟨h₃, h₄⟩]
      rfl

theorem escaped_eq_ok_iff {s r : List Char} {c : Char} :
    escaped s = .ok (c, r) ↔ CharText ('\\' :: s) c r := by
  rcases s with - | ⟨e, s⟩
  · constructor
    · intro h
      cases h
    · rintro ⟨-, -, h⟩
      exact absurd rfl h
  rw [escaped]
  rcases he : escapeOf? e with - | c'
  · dsimp only
    split
    · next hu =>
      subst hu
      exact numbered_eq_ok_iff
    · next hu =>
      constructor
      · intro h
        cases h
      · intro h
        cases h with
        | plain _ _ h => exact absurd rfl h
        | short hc => rw [← escapeOf?_eq_some_iff, he] at hc; cases hc
        | numbered => exact absurd rfl hu
        | pair => exact absurd rfl hu
  · dsimp only
    constructor
    · intro h
      cases h
      exact .short (escapeOf?_eq_some_iff.mp he)
    · intro h
      cases h with
      | plain _ _ h => exact absurd rfl h
      | short hc =>
        rw [← escapeOf?_eq_some_iff, he] at hc
        cases hc
        rfl
      | numbered => cases he
      | pair => cases he

/-! ### Strings -/

/-- A round that reads a character leaves the others to the next rounds. -/
theorem stringFrom_char {n : Nat} {soFar s s' : List Char} {c : Char} (h : CharText s c s') :
    stringFrom (n + 1) soFar s = stringFrom n (c :: soFar) s' := by
  rcases s with - | ⟨d, s⟩
  · cases h
  by_cases hslash : d = '\\'
  · subst hslash
    rw [stringFrom, if_neg (by decide), if_pos rfl, escaped_eq_ok_iff.mpr h]
  · cases h with
    | plain hcontrol hquote _ =>
      rw [stringFrom, if_neg hquote, if_neg hslash, if_neg (Nat.not_lt.mpr hcontrol)]
    | short => exact absurd rfl hslash
    | numbered => exact absurd rfl hslash
    | pair => exact absurd rfl hslash

/-- A round that succeeds is at the end of the string or reads a character. -/
theorem stringFrom_start {n : Nat} {soFar s r : List Char} {x : String}
    (h : stringFrom (n + 1) soFar s = .ok (x, r)) :
    (s = '"' :: r ∧ x = String.ofList soFar.reverse) ∨ ∃ c s', CharText s c s' := by
  rcases s with - | ⟨c, s⟩
  · cases h
  rw [stringFrom] at h
  split at h
  · next hquote =>
    subst hquote
    cases h
    exact .inl ⟨rfl, rfl⟩
  next hquote =>
  refine .inr ?_
  split at h
  · next hslash =>
    subst hslash
    rcases he : escaped s with f | ⟨e, s'⟩
    · rw [he] at h
      cases h
    · exact ⟨e, s', escaped_eq_ok_iff.mp he⟩
  next hslash =>
  split at h
  · cases h
  · next hcontrol => exact ⟨c, s, .plain (Nat.not_lt.mp hcontrol) hquote hslash⟩

/-- The rounds that read a string take its characters one by one. -/
theorem stringFrom_eq_ok_iff {n : Nat} {soFar s r : List Char} {x : String}
    (hn : s.length ≤ n) :
    stringFrom n soFar s = .ok (x, r) ↔
      ∃ cs, x = String.ofList (soFar.reverse ++ cs) ∧ StringText s cs r := by
  -- each character takes something, so there are rounds enough
  induction n generalizing soFar s with
  | zero =>
    obtain rfl := List.length_eq_zero_iff.mp (Nat.le_zero.mp hn)
    constructor
    · intro h
      cases h
    · rintro ⟨cs, -, h⟩
      exact absurd h.shorter (Nat.not_lt_zero _)
  | succ n ih =>
    have hnext : ∀ {c s'}, CharText s c s' → s'.length ≤ n := fun hc =>
      Nat.le_of_lt_succ (Nat.lt_of_lt_of_le hc.shorter hn)
    constructor
    · intro h
      rcases stringFrom_start h with ⟨rfl, rfl⟩ | ⟨c, s', hc⟩
      · exact ⟨[], by rw [List.append_nil], .nil⟩
      · rw [stringFrom_char hc] at h
        obtain ⟨cs, hx, hcs⟩ := (ih (hnext hc)).mp h
        rw [List.reverse_cons, List.append_assoc, List.singleton_append] at hx
        exact ⟨c :: cs, hx, .cons hc hcs⟩
    · rintro ⟨cs, rfl, h⟩
      cases h with
      | nil => rw [stringFrom, if_pos rfl, List.append_nil]
      | @cons c cs _ s' _ hc hcs =>
        rw [stringFrom_char hc]
        refine (ih (hnext hc)).mpr ⟨cs, ?_, hcs⟩
        rw [List.reverse_cons, List.append_assoc, List.singleton_append]

/-- **A string is read exactly if it is one**, to its end. -/
theorem string_eq_ok_iff {s r : List Char} {x : String} :
    string s = .ok (x, r) ↔ StringText s x.toList r := by
  rw [string, stringFrom_eq_ok_iff (Nat.le_refl _)]
  constructor
  · rintro ⟨cs, rfl, h⟩
    rwa [List.reverse_nil, List.nil_append, String.toList_ofList]
  · intro h
    exact ⟨x.toList, by rw [List.reverse_nil, List.nil_append, String.ofList_toList], h⟩

end WorkspaceAudit.Json

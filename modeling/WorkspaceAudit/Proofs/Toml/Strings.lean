/-
WorkspaceAudit/Proofs/Toml/Strings.lean

The text of a string is read back.

A string is written in the first of several forms of quotes that suits it.  Each form
has a reader, and each of these reads what is written in its form:

* between double quotes every character stands for itself or is an escape of itself
  (`escapeChar_cases`);
* between triple quotes the string ends at the last three of a row of at most five
  quotes, and no longer row is ever written (`quoteRole_append`);
* single quotes are taken only for strings with no row of quotes as long as theirs
  (`longestRow`).

A form is also not mistaken for another one before it, so the string is what the
reader of all forms answers (`reads_stringText`).
-/
import WorkspaceAudit.Proofs.Toml.Lines
import WorkspaceAudit.Proofs.Toml.Printing

namespace WorkspaceAudit.Toml

open Reader

variable {cs r : List Char} {soFar : List Char} {n : Nat}

/-! ### Characters -/

/-- A character is no control exactly if it is printed as it is and no tab. -/
theorem isControl_eq_false_iff {c : Char} :
    isControl c = false ↔ isPrintable c = true ∧ c ≠ '\t' := by
  have htab : c = '\t' ↔ c.toNat = 9 := by
    rw [← Char.toNat_inj]
    exact Iff.rfl
  rw [isControl, isPrintable, ne_eq, htab]
  by_cases h : c = '\t'
  · subst h
    decide
  · rw [htab] at h
    simp only [Bool.or_eq_false_iff, decide_eq_false_iff_not, beq_eq_false_iff_ne, Bool.or_eq_true,
      beq_iff_eq, Bool.and_eq_true, decide_eq_true_eq, bne_iff_ne, htab]
    omega

/-- The codes of controls have four digits that read back. -/
theorem hexFour_of_lt {n : Nat} (hn : n < 128) :
    (hexFour n).length = 4 ∧ (hexFour n).all isHexDigit ∧ ofDigits 16 (hexFour n) = n := by
  have hall : ∀ n < 128,
      (hexFour n).length = 4 ∧ (hexFour n).all isHexDigit ∧ ofDigits 16 (hexFour n) = n := by
    decide +kernel
  exact hall n hn

theorem reads_codePoint {c : Char} (hc : c.toNat < 128) (r : List Char) :
    Reads (codePoint 4) (hexFour c.toNat ++ r) c r := by
  obtain ⟨hlength, hdigits, hvalue⟩ := hexFour_of_lt hc
  have hvalid : c.toNat.isValidChar := c.valid
  rw [Reads, codePoint, ← hlength, List.take_left, List.drop_left]
  dsimp only
  rw [hdigits, hvalue, if_pos hvalid, Char.ofNat_toNat]
  simp

/-- What an escape of a character is: what stands after its backslash, which is read
as the character. -/
def IsEscape (c : Char) (s : List Char) : Prop :=
  (∀ r, Reads escape (s ++ r) c r) ∧
    ∃ a, s.head? = some a ∧ isBlank a = false ∧ a ≠ '\n' ∧ a ≠ '\r'

theorem isEscape_letter {a c : Char} (h : escapeOf? a = some c)
    (ha : isBlank a = false ∧ a ≠ '\n' ∧ a ≠ '\r') : IsEscape c [a] := by
  refine ⟨fun r => ?_, a, rfl, ha⟩
  rw [Reads, List.singleton_append, escape, h]

/-- A character is written as it stands, or as an escape of it after a backslash. -/
theorem escapeChar_cases (c : Char) :
    (isPlain c = true ∧ escapeChar c = [c]) ∨ ∃ s, escapeChar c = '\\' :: s ∧ IsEscape c s := by
  fun_cases escapeChar c with
  | case1 | case2 | case3 | case4 | case5 | case6 | case7 =>
    subst_vars
    exact .inr ⟨_, rfl, isEscape_letter rfl (by decide)⟩
  | case8 _ _ _ _ _ _ _ hcontrol =>
    refine .inr ⟨_, rfl, fun r => ?_, 'u', rfl, by decide⟩
    have hcode : c.toNat < 128 := by
      simp only [isControl, Bool.or_eq_true, decide_eq_true_eq, beq_iff_eq] at hcontrol
      omega
    have hread := ((reads_codePoint hcode r).firm).label "unicode 4-digit hex code"
    exact hread
  | case9 _ htab _ _ _ hquote hback hcontrol =>
    obtain ⟨hprintable, -⟩ := isControl_eq_false_iff.mp (Bool.eq_false_iff.mpr hcontrol)
    refine .inl ⟨?_, rfl⟩
    simp [isPlain, hprintable, hquote, hback]

theorem escapeChar_ne_nil (c : Char) : escapeChar c ≠ [] := by
  rcases escapeChar_cases c with ⟨-, h⟩ | ⟨s, h, -⟩
  · rw [h]
    exact List.cons_ne_nil _ _
  · rw [h]
    exact List.cons_ne_nil _ _

/-- Only quotes of a block stand as quotes. -/
theorem head?_escapeChar {c : Char} : (escapeChar c).head? ≠ some '"' := by
  rcases escapeChar_cases c with ⟨hplain, h⟩ | ⟨s, h, -⟩
  · rw [h]
    rintro ⟨⟩
    cases hplain
  · rw [h]
    rintro ⟨⟩

/-! ### Double quotes on one line -/

theorem basicFrom_escapeChar (n : Nat) (soFar : List Char) (c : Char) (s : List Char) :
    basicFrom (n + 1) soFar (escapeChar c ++ s) = basicFrom n (c :: soFar) s := by
  rcases escapeChar_cases c with ⟨hplain, h⟩ | ⟨t, h, hescape, -⟩
  · rw [h, List.singleton_append, basicFrom, if_pos hplain]
  · rw [h, List.cons_append, basicFrom, if_neg (by decide), if_neg (by decide), if_pos rfl,
      hescape]

theorem reads_basicFrom_escaped (hn : cs.length < n) (soFar r : List Char) :
    Reads (basicFrom n soFar) (cs.flatMap escapeChar ++ '"' :: r)
      (String.ofList (soFar.reverse ++ cs)) r := by
  -- one round of the reader for each character, whatever its escape is
  induction cs generalizing n soFar with
  | nil =>
    obtain ⟨n, rfl⟩ := Nat.exists_eq_add_one_of_ne_zero (Nat.ne_zero_of_lt hn)
    rw [List.append_nil]
    rfl
  | cons c cs ih =>
    obtain ⟨n, rfl⟩ := Nat.exists_eq_add_one_of_ne_zero (Nat.ne_zero_of_lt hn)
    have hrest := ih (Nat.lt_of_succ_lt_succ hn) (c :: soFar)
    rw [List.reverse_cons, List.append_assoc, List.singleton_append] at hrest
    rw [Reads, List.flatMap_cons, List.append_assoc, basicFrom_escapeChar]
    exact hrest

theorem length_le_flatMap {f : Char → List Char} (h : ∀ c, f c ≠ []) (cs : List Char) :
    cs.length ≤ (cs.flatMap f).length := by
  induction cs with
  | nil => exact Nat.le_refl _
  | cons c cs ih =>
    have hpos := List.length_pos_iff.mpr (h c)
    rw [List.flatMap_cons, List.length_append, List.length_cons]
    omega

theorem reads_basicText (cs r : List Char) :
    Reads basic (basicText cs ++ r) (String.ofList cs) r := by
  have hlength : cs.length < (cs.flatMap escapeChar ++ '"' :: r).length + 1 := by
    have hle := length_le_flatMap escapeChar_ne_nil cs
    rw [List.length_append]
    omega
  have hfrom := reads_basicFrom_escaped hlength [] r
  rw [basicText, List.cons_append, List.append_assoc, List.singleton_append]
  exact hfrom

/-- Where no quote follows, an empty string opens no block. -/
theorem misses_basicBlock_basicText (cs : List Char) {r : List Char}
    (hr : Stops (· == '"') r) : Misses basicBlock (basicText cs ++ r) := by
  have hquotes : dropStart? ['"', '"', '"'] (basicText cs ++ r) = none := by
    rw [basicText, List.cons_append, List.append_assoc, List.singleton_append, dropStart?,
      if_pos rfl]
    cases cs with
    | nil =>
      rw [List.flatMap_nil, List.nil_append, dropStart?, if_pos rfl]
      cases r with
      | nil => rfl
      | cons c r => rw [dropStart?, if_neg (beq_eq_false_iff_ne.mp (hr c rfl)).symm]
    | cons c cs =>
      have hne := head?_escapeChar (c := c)
      rw [List.flatMap_cons]
      cases hc : escapeChar c with
      | nil => exact absurd hc (escapeChar_ne_nil c)
      | cons d ds =>
        rw [hc, List.head?_cons, ne_eq, Option.some.injEq] at hne
        rw [List.cons_append, List.cons_append, dropStart?, if_neg (Ne.symm hne)]
  exact ⟨_, by rw [basicBlock, hquotes]⟩

/-! ### Triple quotes -/

/-- The last three quotes of a row close a block, if no more than two come before. -/
theorem quoteRole_closing (q : Char) {r : List Char} (hr : Stops (· == q) r) (before : Nat)
    (hbefore : before ≤ 2) :
    quoteRole q (List.replicate (before + 2) q ++ r) = .closing before r := by
  have hne : ∀ c ∈ r.head?, c ≠ q := fun c hc => beq_eq_false_iff_ne.mp (hr c hc)
  match before, hbefore with
  | 0, _ =>
    rcases r with - | ⟨c, - | ⟨d, r⟩⟩
    · simp [quoteRole]
    · simp [quoteRole, hne c rfl]
    · simp [quoteRole, hne c rfl]
  | 1, _ =>
    rcases r with - | ⟨c, r⟩
    · simp [quoteRole, List.replicate]
    · simp [quoteRole, List.replicate, hne c rfl]
  | 2, _ => simp [quoteRole, List.replicate]

/-- A quote is one of its own if not both characters after it are quotes. -/
theorem quoteRole_own {q a b : Char} (h : a ≠ q ∨ b ≠ q) (r : List Char) :
    quoteRole q (a :: b :: r) = .own := by
  have hboth : ¬ (decide (a = q) && decide (b = q)) = true := by
    simpa [← not_and_or] using h
  unfold quoteRole
  exact if_neg hboth

/-- Before the closing quotes a quote is one of its own, or nothing but one more quote
may follow it. -/
theorem quoteRole_append {q : Char} {body r : List Char} (hbody : ¬ [q, q] <+: body)
    (hr : Stops (· == q) r) :
    quoteRole q (body ++ q :: q :: q :: r) = .own ∨
      ∃ k, k ≤ 1 ∧ body = List.replicate k q ∧
        quoteRole q (body ++ q :: q :: q :: r) = .closing (k + 1) r := by
  rcases body with - | ⟨a, body⟩
  · exact .inr ⟨0, by decide, rfl, quoteRole_closing q hr 1 (by decide)⟩
  by_cases ha : a = q
  · subst ha
    rcases body with - | ⟨b, body⟩
    · exact .inr ⟨1, by decide, rfl, quoteRole_closing a hr 2 (by decide)⟩
    · have hb : b ≠ a := by
        rintro rfl
        exact hbody (List.prefix_append [b, b] body)
      exact .inl (quoteRole_own (.inr hb) _)
  · obtain ⟨b, s, hs⟩ : ∃ b s, body ++ q :: q :: q :: r = b :: s :=
      List.exists_cons_of_ne_nil (by simp)
    rw [List.cons_append, hs]
    exact .inl (quoteRole_own (.inl ha) s)

/-! ### Triple double quotes -/

/-- A block goes on with a quote only where its string does. -/
theorem head?_blockBody (row : Nat) {c : Char} (h : c ≠ '"' ∨ row = 2) (cs : List Char) :
    ∃ d ds, blockBody row (c :: cs) = d :: ds ∧ d ≠ '"' := by
  rw [blockBody]
  split
  · next hquote =>
    rw [if_pos (h.resolve_left (not_not_intro hquote))]
    exact ⟨_, _, rfl, by decide⟩
  split
  · exact ⟨_, _, rfl, by decide⟩
  · have hne := head?_escapeChar (c := c)
    cases hc : escapeChar c with
    | nil => exact absurd hc (escapeChar_ne_nil c)
    | cons d ds =>
      rw [hc, List.head?_cons, ne_eq, Option.some.injEq] at hne
      exact ⟨d, _, List.cons_append, hne⟩

theorem length_le_blockBody (row : Nat) (cs : List Char) :
    cs.length ≤ (blockBody row cs).length := by
  induction cs generalizing row with
  | nil => exact Nat.zero_le _
  | cons c cs ih =>
    rw [blockBody, List.length_cons]
    split
    · split
      · exact Nat.succ_le_succ (Nat.le_succ_of_le (ih 0))
      · exact Nat.succ_le_succ (ih _)
    split
    · exact Nat.succ_le_succ (ih 0)
    · have hpos := List.length_pos_iff.mpr (escapeChar_ne_nil c)
      have hle := ih 0
      rw [List.length_append]
      omega

theorem continued?_escape {c : Char} {s : List Char} (h : IsEscape c s) (r : List Char) :
    continued? (s ++ r) = none := by
  obtain ⟨-, a, ha, hblank, hfeed, hreturn⟩ := h
  obtain ⟨t, rfl⟩ := List.head?_eq_some_iff.mp ha
  have hstart : Stops isBlank (a :: (t ++ r)) := stops_cons hblank _
  rw [continued?, List.cons_append, hstart.dropWhile, lineFeed]
  · exact fun r' heq => hfeed (List.cons.inj heq).1
  · exact fun r' heq => hreturn (List.cons.inj heq).1

theorem basicBlockFrom_escapeChar (n : Nat) (soFar : List Char) (c : Char) (s : List Char) :
    basicBlockFrom (n + 1) soFar (escapeChar c ++ s) = basicBlockFrom n (c :: soFar) s := by
  rcases escapeChar_cases c with ⟨hplain, h⟩ | ⟨t, h, hescape⟩
  · rw [h, List.singleton_append, basicBlockFrom, if_pos hplain]
  · rw [h, List.cons_append, basicBlockFrom, if_neg (by decide), if_neg (by decide), if_pos rfl,
      continued?_escape hescape, hescape.1]

/-- After a quote of its own a block does not go on with two more. -/
theorem not_prefix_blockBody {row : Nat} (h : row = 1 ∨ row = 2) (cs : List Char) :
    ¬ ['"', '"'] <+: blockBody row cs := by
  have hhead : ∀ c cs', blockBody 2 (c :: cs') ≠ [] ∧
      (blockBody 2 (c :: cs')).head? ≠ some '"' := by
    intro c cs'
    obtain ⟨d, ds, hd, hne⟩ := head?_blockBody 2 (.inr rfl) cs'
    rw [hd]
    exact ⟨List.cons_ne_nil d ds, fun heq => hne (Option.some.inj heq)⟩
  rintro ⟨s, hs⟩
  cases cs with
  | nil => cases hs
  | cons c cs =>
    rcases h with rfl | rfl
    · by_cases hc : c = '"'
      · subst hc
        -- one more quote, and then another character or none
        have hrest : blockBody 2 cs = '"' :: s := (List.cons.inj hs).2.symm
        cases cs with
        | nil => cases hrest
        | cons c cs => exact (hhead c cs).2 (hrest ▸ rfl)
      · obtain ⟨d, ds, hd, hne⟩ := head?_blockBody 1 (.inl hc) cs
        rw [hd] at hs
        exact hne (List.cons.inj hs).1.symm
    · exact (hhead c cs).2 (hs ▸ rfl)

/-- A block that is only quotes is that of a string of quotes. -/
theorem eq_replicate_of_blockBody {row k : Nat} (hk : k ≤ 1)
    (h : blockBody row cs = List.replicate k '"') : cs = List.replicate k '"' := by
  have hlength := length_le_blockBody row cs
  rw [h, List.length_replicate] at hlength
  rcases cs with - | ⟨c, - | ⟨d, cs⟩⟩
  · cases k with
    | zero => rfl
    | succ k => cases h
  · obtain rfl : k = 1 := Nat.le_antisymm hk hlength
    by_cases hc : c = '"'
    · rw [hc]
      rfl
    · obtain ⟨d, ds, hd, hne⟩ := head?_blockBody row (.inl hc) []
      rw [hd] at h
      exact absurd (List.cons.inj h).1 hne
  · exact absurd (Nat.le_trans hlength hk) (by simp)

/-- A block is read as its string, to the quotes that close it. -/
theorem reads_basicBlockFrom {row : Nat} (hrow : row ≤ 2) (hn : cs.length < n)
    (hr : Stops (· == '"') r) (soFar : List Char) :
    Reads (basicBlockFrom n soFar) (blockBody row cs ++ '"' :: '"' :: '"' :: r)
      (String.ofList (soFar.reverse ++ cs)) r := by
  -- with any number of quotes directly before, at most two since the third is escaped
  induction cs generalizing row n soFar with
  | nil =>
    obtain ⟨n, rfl⟩ := Nat.exists_eq_add_one_of_ne_zero (Nat.ne_zero_of_lt hn)
    have hrole : quoteRole '"' ('"' :: '"' :: r) = .closing 0 r :=
      quoteRole_closing '"' hr 0 (by decide)
    rw [List.append_nil, Reads, blockBody, List.nil_append, basicBlockFrom, if_neg (by decide),
      if_pos rfl, hrole]
    rfl
  | cons c cs ih =>
    obtain ⟨n, rfl⟩ := Nat.exists_eq_add_one_of_ne_zero (Nat.ne_zero_of_lt hn)
    have hrest : ∀ row ≤ 2, Reads (basicBlockFrom n (c :: soFar))
        (blockBody row cs ++ '"' :: '"' :: '"' :: r) (String.ofList (soFar.reverse ++ c :: cs))
        r := by
      intro row hrow
      have hcs := ih hrow (Nat.lt_of_succ_lt_succ hn) (c :: soFar)
      rwa [List.reverse_cons, List.append_assoc, List.singleton_append] at hcs
    rw [Reads, blockBody]
    by_cases hquote : c = '"'
    · subst hquote
      rw [if_pos rfl]
      by_cases hthird : row = 2
      · -- the third quote of a row is escaped
        have hstep := basicBlockFrom_escapeChar n soFar '"'
          (blockBody 0 cs ++ '"' :: '"' :: '"' :: r)
        rw [if_pos hthird]
        exact hstep.trans (hrest 0 (by decide))
      · rw [if_neg hthird, List.cons_append, basicBlockFrom, if_neg (by decide), if_pos rfl]
        have hnext : row + 1 = 1 ∨ row + 1 = 2 := by omega
        rcases quoteRole_append (not_prefix_blockBody hnext cs) hr with
          hrole | ⟨k, hk, hbody, hrole⟩
        · rw [hrole]
          exact hrest (row + 1) (by omega)
        · -- the row of quotes that ends the string closes the block with it
          rw [hrole, eq_replicate_of_blockBody hk hbody]
          dsimp only
          rw [closed, List.reverse_append, List.reverse_replicate]
          rfl
    · rw [if_neg hquote]
      by_cases hfeed : c = '\n'
      · subst hfeed
        rw [if_pos rfl, List.cons_append, basicBlockFrom, if_neg (by decide), if_neg (by decide),
          if_neg (by decide)]
        exact hrest 0 (by decide)
      · rw [if_neg hfeed, List.append_assoc, basicBlockFrom_escapeChar]
        exact hrest 0 (by decide)

/-- A text is left as it is where no line ends. -/
theorem dropLineFeed_of_head {s : List Char} (h : s.head? ≠ some '\n' ∧ s.head? ≠ some '\r') :
    dropLineFeed s = s := by
  rw [dropLineFeed, lineFeed]
  · rintro r rfl
    exact h.1 rfl
  · rintro r rfl
    exact h.2 rfl

/-- A block without line feeds starts with none, and with no carriage return. -/
theorem head?_blockBody_append (hcs : '\n' ∉ cs) (r : List Char) :
    (blockBody 0 cs ++ '"' :: r).head? ≠ some '\n' ∧
      (blockBody 0 cs ++ '"' :: r).head? ≠ some '\r' := by
  cases cs with
  | nil => simp [blockBody]
  | cons c cs =>
    have hfeed : c ≠ '\n' := by
      rintro rfl
      exact hcs List.mem_cons_self
    by_cases hquote : c = '"'
    · rw [blockBody, if_pos hquote]
      simp
    · rw [blockBody, if_neg hquote, if_neg hfeed]
      rcases escapeChar_cases c with ⟨hplain, h⟩ | ⟨s, h, -⟩
      · rw [h]
        refine ⟨fun heq => hfeed (Option.some.inj heq), ?_⟩
        rintro ⟨⟩
        cases hplain
      · rw [h]
        simp

theorem reads_basicBlock (hr : Stops (· == '"') r) :
    Reads basicBlock (blockText '"' (cs.contains '\n') (blockBody 0 cs) ++ r)
      (String.ofList cs) r := by
  have htext : blockText '"' (cs.contains '\n') (blockBody 0 cs) ++ r =
      '"' :: '"' :: '"' :: ((if cs.contains '\n' then ['\n'] else []) ++
        (blockBody 0 cs ++ '"' :: '"' :: '"' :: r)) := by
    simp [blockText, List.replicate]
  have hstart : dropLineFeed ((if cs.contains '\n' then ['\n'] else []) ++
      (blockBody 0 cs ++ '"' :: '"' :: '"' :: r)) = blockBody 0 cs ++ '"' :: '"' :: '"' :: r := by
    -- a line feed is put in front of a string with lines, and dropped; else there is none
    split
    · rfl
    · next hlines =>
      have hcs : '\n' ∉ cs := by simpa using hlines
      exact dropLineFeed_of_head (head?_blockBody_append hcs _)
  have hlength : cs.length < (blockBody 0 cs ++ '"' :: '"' :: '"' :: r).length + 1 := by
    have hle := length_le_blockBody 0 cs
    rw [List.length_append]
    omega
  have hread := reads_basicBlockFrom (Nat.zero_le 2) hlength hr []
  rw [Reads, htext, basicBlock, dropStart?, if_pos rfl, dropStart?, if_pos rfl, dropStart?,
    if_pos rfl, dropStart?]
  dsimp only
  rw [hstart]
  exact hread

/-! ### Single quotes -/

theorem reads_literal (hcs : ∀ c ∈ cs, isLiteral c) (r : List Char) :
    Reads literal ('\x27' :: (cs ++ '\x27' :: r)) (String.ofList cs) r := by
  have hstop : Stops isLiteral ('\x27' :: r) := stops_cons rfl r
  have hend : (cs ++ '\x27' :: r).dropWhile isLiteral = '\x27' :: r := by
    rw [List.dropWhile_append_of_pos hcs, hstop.dropWhile]
  have hinside : (cs ++ '\x27' :: r).takeWhile isLiteral = cs := by
    rw [List.takeWhile_append_of_pos hcs, hstop.takeWhile, List.append_nil]
  apply Reads.label
  simp only [Reads, hend, hinside]

/-- Where a character follows the first quote, no block opens. -/
theorem misses_literalBlock {c : Char} (hc : c ≠ '\x27') (s : List Char) :
    Misses literalBlock ('\x27' :: c :: s) := by
  have hquotes : dropStart? ['\x27', '\x27', '\x27'] ('\x27' :: c :: s) = none := by
    rw [dropStart?, if_pos rfl, dropStart?, if_neg (Ne.symm hc)]
  exact ⟨_, by rw [literalBlock, hquotes]⟩

/-- A block between single quotes is read as it stands, if it has no three of them in a
row. -/
theorem reads_literalBlockFrom (hcs : ∀ c ∈ cs, isLiteral c ∨ c = '\x27' ∨ c = '\n')
    (hrow : ¬ ['\x27', '\x27', '\x27'] <:+: cs) (hn : cs.length < n)
    (hr : Stops (· == '\x27') r) (soFar : List Char) :
    Reads (literalBlockFrom n soFar) (cs ++ '\x27' :: '\x27' :: '\x27' :: r)
      (String.ofList (soFar.reverse ++ cs)) r := by
  induction cs generalizing n soFar with
  | nil =>
    obtain ⟨n, rfl⟩ := Nat.exists_eq_add_one_of_ne_zero (Nat.ne_zero_of_lt hn)
    have hrole : quoteRole '\x27' ('\x27' :: '\x27' :: r) = .closing 0 r :=
      quoteRole_closing '\x27' hr 0 (by decide)
    rw [List.append_nil, Reads, List.nil_append, literalBlockFrom, if_neg (by decide), if_pos rfl,
      hrole]
    rfl
  | cons c cs ih =>
    obtain ⟨n, rfl⟩ := Nat.exists_eq_add_one_of_ne_zero (Nat.ne_zero_of_lt hn)
    obtain ⟨hc, hcs⟩ := List.forall_mem_cons.mp hcs
    have hrow' : ¬ ['\x27', '\x27', '\x27'] <:+: cs :=
      fun h => hrow (h.trans (List.suffix_cons c cs).isInfix)
    have hrest := ih hcs hrow' (Nat.lt_of_succ_lt_succ hn) (c :: soFar)
    rw [List.reverse_cons, List.append_assoc, List.singleton_append] at hrest
    rw [Reads, List.cons_append, literalBlockFrom]
    rcases hc with hc | rfl | rfl
    · rw [if_pos hc]
      exact hrest
    · rw [if_neg (by decide), if_pos rfl]
      have hbody : ¬ ['\x27', '\x27'] <+: cs := by
        rintro ⟨s, rfl⟩
        exact hrow (List.prefix_append ['\x27', '\x27', '\x27'] s).isInfix
      rcases quoteRole_append hbody hr with hrole | ⟨k, hk, rfl, hrole⟩
      · rw [hrole]
        exact hrest
      · -- the row of quotes that ends the string closes the block with it
        rw [hrole]
        dsimp only
        rw [closed, List.reverse_append, List.reverse_replicate]
        rfl
    · rw [if_neg (by decide), if_neg (by decide)]
      exact hrest

theorem reads_literalBlock (hcs : ∀ c ∈ cs, isLiteral c ∨ c = '\x27' ∨ c = '\n')
    (hrow : ¬ ['\x27', '\x27', '\x27'] <:+: cs) (hr : Stops (· == '\x27') r) :
    Reads literalBlock (blockText '\x27' (cs.contains '\n') cs ++ r) (String.ofList cs) r := by
  have htext : blockText '\x27' (cs.contains '\n') cs ++ r =
      '\x27' :: '\x27' :: '\x27' :: ((if cs.contains '\n' then ['\n'] else []) ++
        (cs ++ '\x27' :: '\x27' :: '\x27' :: r)) := by
    simp [blockText, List.replicate]
  have hstart : dropLineFeed ((if cs.contains '\n' then ['\n'] else []) ++
      (cs ++ '\x27' :: '\x27' :: '\x27' :: r)) = cs ++ '\x27' :: '\x27' :: '\x27' :: r := by
    split
    · rfl
    · next hlines =>
      have hfeed : '\n' ∉ cs := by simpa using hlines
      apply dropLineFeed_of_head
      cases cs with
      | nil => simp
      | cons c cs =>
        have hne : ∀ d, isLiteral d = false → d ≠ '\x27' → d ∉ c :: cs → c ≠ d := by
          rintro _ - - hmem rfl
          exact hmem List.mem_cons_self
        have hreturn : '\r' ∉ c :: cs := fun hmem => absurd (hcs _ hmem) (by decide)
        exact ⟨fun heq => hne _ rfl (by decide) hfeed (Option.some.inj heq),
          fun heq => hne _ rfl (by decide) hreturn (Option.some.inj heq)⟩
  have hlength : cs.length < (cs ++ '\x27' :: '\x27' :: '\x27' :: r).length + 1 := by
    rw [List.length_append]
    omega
  have hread := reads_literalBlockFrom hcs hrow hlength hr []
  rw [Reads, htext, literalBlock, dropStart?, if_pos rfl, dropStart?, if_pos rfl, dropStart?,
    if_pos rfl, dropStart?]
  dsimp only
  rw [hstart]
  exact hread

/-! ### Rows -/

/-- The longest row and the present one, after one more character. -/
def rowStep (c : Char) (rows : Nat × Nat) (d : Char) : Nat × Nat :=
  if d = c then (max rows.1 (rows.2 + 1), rows.2 + 1) else (rows.1, 0)

theorem longestRow_eq (c : Char) (cs : List Char) :
    longestRow c cs = (cs.foldl (rowStep c) (0, 0)).1 :=
  rfl

theorem le_foldl_rowStep (c : Char) (cs : List Char) (rows : Nat × Nat) :
    rows.1 ≤ (cs.foldl (rowStep c) rows).1 := by
  induction cs generalizing rows with
  | nil => exact Nat.le_refl _
  | cons d cs ih =>
    refine Nat.le_trans ?_ (ih (rowStep c rows d))
    rw [rowStep]
    split
    · exact Nat.le_max_left _ _
    · exact Nat.le_refl _

/-- After a row of so many there is one at least as long. -/
theorem le_foldl_replicate (c : Char) (k : Nat) (rows : Nat × Nat) (cs : List Char)
    (hrows : rows.2 ≤ rows.1) :
    rows.2 + k ≤ ((List.replicate k c ++ cs).foldl (rowStep c) rows).1 := by
  induction k generalizing rows with
  | zero => exact Nat.le_trans hrows (le_foldl_rowStep c cs rows)
  | succ k ih =>
    have hstep : rowStep c rows c = (max rows.1 (rows.2 + 1), rows.2 + 1) := if_pos rfl
    have hrest := ih (rowStep c rows c) (by rw [hstep]; exact Nat.le_max_right _ _)
    rw [hstep] at hrest
    rw [List.replicate_succ, List.cons_append, List.foldl_cons, hstep]
    omega

theorem foldl_rowStep_le (c : Char) (cs : List Char) {rows : Nat × Nat} (h : rows.2 ≤ rows.1) :
    (cs.foldl (rowStep c) rows).2 ≤ (cs.foldl (rowStep c) rows).1 := by
  induction cs generalizing rows with
  | nil => exact h
  | cons d cs ih =>
    apply ih
    rw [rowStep]
    split
    · exact Nat.le_max_right _ _
    · exact Nat.zero_le _

/-- No row in a text is longer than the longest. -/
theorem le_longestRow {c : Char} {k : Nat} (h : List.replicate k c <:+: cs) :
    k ≤ longestRow c cs := by
  obtain ⟨before, after, rfl⟩ := h
  rw [longestRow_eq, List.append_assoc, List.foldl_append]
  have hrow := le_foldl_replicate c k (before.foldl (rowStep c) (0, 0)) after
    (foldl_rowStep_le c before (Nat.le_refl 0))
  omega

theorem longestRow_eq_zero_iff {c : Char} : longestRow c cs = 0 ↔ c ∉ cs := by
  constructor
  · intro h hmem
    obtain ⟨before, after, rfl⟩ := List.append_of_mem hmem
    have hone : 1 ≤ longestRow c (before ++ c :: after) :=
      le_longestRow ⟨before, after, by simp⟩
    omega
  · intro h
    have hrows : cs.foldl (rowStep c) (0, 0) = (0, 0) := by
      induction cs with
      | nil => rfl
      | cons d cs ih =>
        obtain ⟨hd, hcs⟩ := not_or.mp (mt List.mem_cons.mpr h)
        have hstep : rowStep c (0, 0) d = (0, 0) := if_neg (Ne.symm hd)
        rw [List.foldl_cons, hstep]
        exact ih hcs
    rw [longestRow_eq, hrows]

/-! ### Texts without escapes -/

/-- No character of the text is escaped between double quotes. -/
def Tame (cs : List Char) : Prop :=
  ∀ c ∈ cs, isControl c = false ∧ c ≠ '"' ∧ c ≠ '\\'

theorem Tame.basicText_eq (h : Tame cs) : basicText cs = '"' :: (cs ++ ['"']) := by
  have hchars : cs.flatMap escapeChar = cs := by
    induction cs with
    | nil => rfl
    | cons c cs ih =>
      obtain ⟨⟨hcontrol, hquote, hback⟩, hcs⟩ := List.forall_mem_cons.mp h
      have hne : ∀ d, isControl d = true → c ≠ d := by
        rintro d hd rfl
        rw [hd] at hcontrol
        cases hcontrol
      rw [List.flatMap_cons, ih hcs, escapeChar, if_neg (hne _ rfl), if_neg (hne _ rfl),
        if_neg (hne _ rfl), if_neg (hne _ rfl), if_neg (hne _ rfl), if_neg hquote, if_neg hback,
        if_neg (Bool.eq_false_iff.mp hcontrol), List.singleton_append]
  rw [basicText, hchars]

theorem Tame.stringText_eq (h : Tame cs) : stringText cs = '"' :: (cs ++ ['"']) := by
  have hcontrol : (cs.any fun c => isControl c && c != '\t' && c != '\n') = false := by
    rw [List.any_eq_false]
    intro c hc
    simp [(h c hc).1]
  have hback : cs.contains '\\' = false := by
    simpa using fun hmem => (h _ hmem).2.2 rfl
  have hfeed : cs.contains '\n' = false := by
    simpa using fun hmem => absurd (h _ hmem).1 (by decide)
  have hrow : longestRow '"' cs = 0 :=
    longestRow_eq_zero_iff.mpr fun hmem => (h _ hmem).2.1 rfl
  unfold stringText
  dsimp only
  rw [hcontrol, hback, hfeed, hrow]
  exact (if_pos rfl).trans h.basicText_eq

theorem tame_datetime (d : Datetime) : Tame d.text := by
  have hsigns : (dateSigns.all fun c => !isControl c && c != '"' && c != '\\') = true := rfl
  intro c hc
  rcases Datetime.mem_text hc with hdigit | hsign
  · have hcode : 48 ≤ c.toNat ∧ c.toNat ≤ 57 := Char.isDigit_iff_toNat.mp hdigit
    refine ⟨?_, ?_, ?_⟩
    · simp only [isControl, Bool.or_eq_false_iff, decide_eq_false_iff_not, beq_eq_false_iff_ne]
      omega
    · rintro rfl
      cases hdigit
    · rintro rfl
      cases hdigit
  · simpa [and_assoc] using List.all_eq_true.mp hsigns c hsign

theorem Value.aloneText_datetime (d : Datetime) :
    (Value.datetime d).aloneText =
      "\x7b \"$__toml_private_datetime\" = \"".toList ++ d.text ++ "\" \x7d".toList := by
  have hkey : keyText Fields.datetimeKey = "\"$__toml_private_datetime\"".toList := by decide
  have hstring : stringText (String.ofList d.text).toList = '"' :: (d.text ++ ['"']) := by
    rw [String.toList_ofList, (tame_datetime d).stringText_eq]
  rw [Value.aloneText, Value.text, Value.fieldTexts, Value.fieldTexts, Value.text, hkey, hstring]
  simp [commaSeparated]

/-! ### Strings -/

/-- A character that is no control may stand between single quotes, a tab too. -/
theorem isLiteral_of_not_control {c : Char} (hc : isControl c = false ∨ c = '\t')
    (hquote : c ≠ '\x27') : isLiteral c = true := by
  have hprintable : isPrintable c = true := by
    rcases hc with hc | rfl
    · exact (isControl_eq_false_iff.mp hc).1
    · decide
  simp [isLiteral, hprintable, hquote]

/-- Where a single quote stands, no string between double ones is read. -/
theorem misses_double (s : List Char) : Misses (basicBlock.orElse basic) ('\x27' :: s) :=
  ⟨_, rfl⟩

/-- **What a string is written as is read as the string.** -/
theorem reads_stringText (cs : List Char) (hdouble : Stops (· == '"') r)
    (hsingle : Stops (· == '\x27') r) : Reads text (stringText cs ++ r) (String.ofList cs) r := by
  have hbasic : Reads text (basicText cs ++ r) (String.ofList cs) r :=
    (((misses_basicBlock_basicText cs hdouble).orElse (reads_basicText cs r)).orElse _).orElse _
  have hblock : Reads text (blockText '"' (cs.contains '\n') (blockBody 0 cs) ++ r)
      (String.ofList cs) r :=
    (((reads_basicBlock hdouble).orElse _).orElse _).orElse _
  -- what is known of the characters where one of the single quotes is taken
  have hprinted : (!cs.any fun c => isControl c && c != '\t' && c != '\n') = true →
      ∀ c ∈ cs, (isControl c = false ∨ c = '\t') ∨ c = '\n' := by
    intro h c hc
    simp only [Bool.not_eq_true', List.any_eq_false, Bool.and_eq_true, bne_iff_ne] at h
    have hnot := h c hc
    by_cases hcontrol : isControl c = false
    · exact .inl (.inl hcontrol)
    · by_cases htab : c = '\t'
      · exact .inl (.inr htab)
      · by_cases hfeed : c = '\n'
        · exact .inr hfeed
        · exact absurd ⟨⟨Bool.not_eq_false _ ▸ hcontrol, htab⟩, hfeed⟩ hnot
  -- the forms in the order of the printer
  unfold stringText
  dsimp only
  split
  · exact hbasic
  · next hplain =>
    split
    · next hform =>
      simp only [Bool.and_eq_true, beq_iff_eq] at hform
      obtain ⟨⟨hcontrol, hrow⟩, hlines⟩ := hform
      have hquote : '\x27' ∉ cs := longestRow_eq_zero_iff.mp hrow
      have hfeed : '\n' ∉ cs := by simpa using hlines
      have hliteral : ∀ c ∈ cs, isLiteral c := by
        intro c hc
        refine isLiteral_of_not_control ((hprinted hcontrol c hc).resolve_right ?_) ?_
        · rintro rfl
          exact hfeed hc
        · rintro rfl
          exact hquote hc
      cases cs with
      | nil => exact absurd rfl hplain
      | cons c cs =>
        have hc : c ≠ '\x27' := fun heq => hquote (heq ▸ List.mem_cons_self)
        have hopen : '\x27' :: (c :: cs ++ ['\x27']) ++ r =
            '\x27' :: (c :: cs ++ '\x27' :: r) := by simp
        rw [hopen]
        exact ((misses_double _).orElse_misses (misses_literalBlock hc _)).orElse
          (reads_literal hliteral r)
    · split
      · exact hblock
      · split
        · next hform =>
          simp only [Bool.and_eq_true, decide_eq_true_eq] at hform
          obtain ⟨hcontrol, hrow⟩ := hform
          have hthree : ¬ ['\x27', '\x27', '\x27'] <:+: cs := by
            intro h
            have hle := le_longestRow (k := 3) h
            omega
          have hliteral : ∀ c ∈ cs, isLiteral c ∨ c = '\x27' ∨ c = '\n' := by
            intro c hc
            by_cases hquote : c = '\x27'
            · exact .inr (.inl hquote)
            · exact (hprinted hcontrol c hc).imp (isLiteral_of_not_control · hquote) .inr
          have hread := reads_literalBlock hliteral hthree hsingle
          exact ((misses_double _).orElse hread).orElse _
        · split
          · exact hblock
          · exact hbasic

end WorkspaceAudit.Toml

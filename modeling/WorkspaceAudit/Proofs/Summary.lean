/-
WorkspaceAudit/Proofs/Summary.lean

A summary says the same in colour, and its numbers add up.

A terminal takes an escape, a bracket, digits and semicolons and an `m` as one
sequence and shows nothing for it.  `Paint.stripped` deletes all sequences from a text
in one pass.  A text can hold what looks like parts of one, brackets, digits, an `m`,
so the deletion does not go through any concatenation.  It does where the parts have
no escape of their own or are whole sequences: `Shows cs ds` says that before any rest
`cs` is shown as `ds`, and a summary is composed of such parts (`stripped_text`).

`Summary.numbers` reads the numbers of a text, its longest stretches of digits.  The
first two of a summary are the number of files and the number of issues, and the last
one of each line after the fifth is the number of issues of a file.
-/
import Mathlib.Data.List.Forall2
import WorkspaceAudit.Proofs.Findings
import WorkspaceAudit.Proofs.Text.Digits
import WorkspaceAudit.Summary

namespace WorkspaceAudit

namespace Paint

/-! ### Sequences -/

/-- Whether a character may stand in the code of a sequence. -/
def isCodeChar (c : Char) : Bool :=
  c.isDigit || c == ';'

/-- What follows the code and the end of a sequence, if the text starts with them. -/
def afterCode? : List Char → Option (List Char)
  | [] => none
  | c :: cs => if c = 'm' then some cs else if isCodeChar c then afterCode? cs else none

theorem length_afterCode? {cs r : List Char} (h : afterCode? cs = some r) :
    r.length < cs.length := by
  fun_induction afterCode? cs with
  | case1 => cases h
  | case2 cs => exact Option.some.inj h ▸ Nat.lt_succ_self _
  | case3 c cs _ _ ih => exact Nat.lt_succ_of_lt (ih h)
  | case4 c cs => cases h

/-- What follows a sequence, if the text starts with one. -/
def afterSequence? : List Char → Option (List Char)
  | '\x1b' :: '[' :: cs => afterCode? cs
  | _ => none

theorem length_afterSequence? {cs r : List Char} (h : afterSequence? cs = some r) :
    r.length < cs.length := by
  fun_cases afterSequence? cs with
  | case1 cs =>
    have hlt := length_afterCode? h
    simp only [List.length_cons]
    omega
  | case2 cs hne =>
    rw [afterSequence?] at h
    · cases h
    · exact hne

/-- A text without the sequences that stand in it. -/
def stripped : List Char → List Char
  | [] => []
  | c :: cs =>
    match _h : afterSequence? (c :: cs) with
    | some r => stripped r
    | none => c :: stripped cs
termination_by cs => cs.length
decreasing_by
  · exact length_afterSequence? _h
  · exact Nat.lt_succ_self _

theorem stripped_of_sequence {cs r : List Char} (h : afterSequence? cs = some r) :
    stripped cs = stripped r := by
  cases cs with
  | nil => cases h
  | cons c cs =>
    rw [stripped]
    split
    · next r' h' => rw [Option.some.inj (h.symm.trans h')]
    · next h' => rw [h] at h'; cases h'

theorem afterSequence?_of_ne {c : Char} (hc : c ≠ '\x1b') (cs : List Char) :
    afterSequence? (c :: cs) = none := by
  rw [afterSequence?]
  rintro cs' ⟨⟩
  exact hc rfl

theorem stripped_cons {c : Char} (hc : c ≠ '\x1b') (cs : List Char) :
    stripped (c :: cs) = c :: stripped cs := by
  rw [stripped]
  split
  · next r h => rw [afterSequence?_of_ne hc] at h; cases h
  · rfl

theorem afterCode?_append {code : List Char} (h : code.all isCodeChar) (cs : List Char) :
    afterCode? (code ++ 'm' :: cs) = some cs := by
  induction code with
  | nil => rfl
  | cons c code ih =>
    obtain ⟨hc, hcode⟩ := Bool.and_eq_true_iff.mp h
    -- the letter that ends a code is none of its characters
    have hm : c ≠ 'm' := by
      rintro rfl
      cases hc
    rw [List.cons_append, afterCode?, if_neg hm, if_pos hc, ih hcode]

/-! ### What a terminal shows -/

/-- Before any rest the first text is shown as the second. -/
def Shows (cs ds : List Char) : Prop :=
  ∀ rest, stripped (cs ++ rest) = ds ++ stripped rest

theorem Shows.stripped {cs ds : List Char} (h : Shows cs ds) : stripped cs = ds := by
  have hnil := h []
  rwa [List.append_nil, Paint.stripped, List.append_nil] at hnil

theorem Shows.append {cs ds cs' ds' : List Char} (h : Shows cs ds) (h' : Shows cs' ds') :
    Shows (cs ++ cs') (ds ++ ds') := by
  intro rest
  rw [List.append_assoc, h, h', List.append_assoc]

theorem Shows.flatMap {α : Type} {as : List α} {f g : α → List Char}
    (h : ∀ a ∈ as, Shows (f a) (g a)) : Shows (as.flatMap f) (as.flatMap g) := by
  induction as with
  | nil => exact fun _ => rfl
  | cons a as ih =>
    obtain ⟨ha, has⟩ := List.forall_mem_cons.mp h
    exact ha.append (ih has)

/-- A text without an escape is shown as it is. -/
theorem shows_self {cs : List Char} (h : '\x1b' ∉ cs) : Shows cs cs := by
  intro rest
  induction cs with
  | nil => rfl
  | cons c cs ih =>
    obtain ⟨hc, hcs⟩ := not_or.mp (mt List.mem_cons.mpr h)
    rw [List.cons_append, stripped_cons (Ne.symm hc), ih hcs, List.cons_append]

/-- A sequence is shown as nothing. -/
theorem shows_sequence {code : List Char} (h : code.all isCodeChar) :
    Shows ('\x1b' :: '[' :: (code ++ ['m'])) [] := by
  intro rest
  have hafter : afterSequence? ('\x1b' :: '[' :: (code ++ 'm' :: rest)) = some rest :=
    afterCode?_append h rest
  rw [List.nil_append, ← stripped_of_sequence hafter]
  simp

theorem shows_opening (p : Paint) : Shows p.opening [] :=
  shows_sequence (by cases p <;> decide)

theorem shows_closing : Shows closing [] :=
  have hcode : ['0'].all isCodeChar := by decide
  shows_sequence hcode

/-- Where no paint ends, none is started again. -/
theorem reopened_eq {cs : List Char} (p : Paint) (h : '\x1b' ∉ cs) : p.reopened cs = cs := by
  induction cs with
  | nil => rfl
  | cons c cs ih =>
    obtain ⟨hc, hcs⟩ := not_or.mp (mt List.mem_cons.mpr h)
    rw [reopened, ih hcs]
    rintro _ rfl
    exact absurd rfl hc

/-- Painted or not, a text without an escape is shown as it is. -/
theorem shows_on (colours : Bool) (p : Paint) {cs : List Char} (h : '\x1b' ∉ cs) :
    Shows (on colours p cs) cs := by
  rw [on]
  split
  · rw [reopened_eq p h]
    have hpainted := ((shows_opening p).append (shows_self h)).append shows_closing
    rwa [List.nil_append, List.append_nil] at hpainted
  · exact shows_self h

end Paint

/-! ### Numbers as they are written -/

theorem Decimal.mem_withPoint {places units : Nat} {c : Char} (h : c ∈ withPoint places units) :
    c.isDigit ∨ c = '.' := by
  have hdigits : ∀ c ∈ List.replicate (places + 1 - (Nat.toDigits 10 units).length) '0' ++
      Nat.toDigits 10 units, c.isDigit := by
    intro c hc
    rcases List.mem_append.mp hc with hc | hc
    · exact isDigit_of_mem_zeros hc
    · exact isDigit_of_mem_toDigits hc
  rw [withPoint] at h
  rcases List.mem_append.mp h with h | h
  · exact .inl (hdigits c (List.mem_of_mem_take h))
  · rcases List.mem_cons.mp h with rfl | h
    · exact .inr rfl
    · exact .inl (hdigits c (List.mem_of_mem_drop h))

theorem Decimal.mem_fixed {places : Nat} {x : Binary64} {c : Char} (h : c ∈ fixed places x) :
    c.isDigit ∨ c ∈ ".NaNinf".toList := by
  cases x with
  | nan =>
    have hwords : "NaN".toList ⊆ ".NaNinf".toList := by decide
    exact .inr (hwords h)
  | infinite negative =>
    have hwords : "inf".toList ⊆ ".NaNinf".toList := by decide
    exact .inr (hwords h)
  | finite negative m e =>
    refine (mem_withPoint h).imp_right ?_
    rintro rfl
    decide

namespace Summary

open Paint

/-! ### In colour and without -/

theorem shows_line (colours : Bool) {start : String} {rest : List Char}
    (hstart : '\x1b' ∉ start.toList) (hrest : '\x1b' ∉ rest) :
    Shows (line colours start rest) (line false start rest) :=
  (shows_on colours .green hstart).append (shows_self (by simp [hrest]))

theorem shows_fileLine (colours : Bool) {file : FileIssues} (h : '\x1b' ∉ file.path.toList) :
    Shows (fileLine colours file) (fileLine false file) := by
  have hmark : Shows [' ', ' '] [' ', ' '] := shows_self (by decide)
  have hcount : '\x1b' ∉ ' ' :: '(' :: (Nat.toDigits 10 file.issues.length ++ [')', '\n']) := by
    simp [not_mem_toDigits]
  exact hmark.append ((shows_on colours .cyan h).append (shows_self hcount))

/-- The span of time in a summary. -/
def elapsedText (elapsed : Duration) : List Char :=
  Decimal.fixed 2 elapsed.toBinary ++ " seconds".toList

theorem not_mem_elapsedText {c : Char} (hdigit : c.isDigit = false)
    (hwords : c ∉ ".NaNinf seconds".toList) (elapsed : Duration) : c ∉ elapsedText elapsed := by
  have hsub : ".NaNinf".toList ⊆ ".NaNinf seconds".toList ∧
      " seconds".toList ⊆ ".NaNinf seconds".toList := by
    decide
  intro h
  rcases List.mem_append.mp h with h | h
  · rcases Decimal.mem_fixed h with h | h
    · rw [hdigit] at h
      cases h
    · exact hwords (hsub.1 h)
  · exact hwords (hsub.2 h)

/-- What stands in a summary before the files. -/
def heading (colours : Bool) (elapsed : Duration) (f : Findings) : List Char :=
  '\n' :: (Paint.on colours .bold "Scan Complete".toList ++ '\n' ::
    (line colours "Files with issues:" (Nat.toDigits 10 f.size) ++
      line colours "Total issues:" (Nat.toDigits 10 f.total) ++
      line colours "Time elapsed:" (elapsedText elapsed)))

theorem toList_text (colours : Bool) (elapsed : Duration) (f : Findings) :
    (text colours elapsed f).toList =
      heading colours elapsed f ++ f.files.flatMap (fileLine colours) := by
  rw [text, String.toList_ofList, heading, elapsedText]
  simp only [List.cons_append, List.append_assoc]

theorem shows_heading (colours : Bool) (elapsed : Duration) (f : Findings) :
    Shows (heading colours elapsed f) (heading false elapsed f) := by
  have hfeed : Shows ['\n'] ['\n'] := shows_self (by decide)
  have htitle : Shows (Paint.on colours .bold "Scan Complete".toList) "Scan Complete".toList :=
    shows_on colours .bold (by decide)
  have hsize : Shows (line colours "Files with issues:" (Nat.toDigits 10 f.size)) _ :=
    shows_line colours (by decide) (not_mem_toDigits (by decide) _)
  have htotal : Shows (line colours "Total issues:" (Nat.toDigits 10 f.total)) _ :=
    shows_line colours (by decide) (not_mem_toDigits (by decide) _)
  have htime : Shows (line colours "Time elapsed:" (elapsedText elapsed)) _ :=
    shows_line colours (by decide) (not_mem_elapsedText (by decide) (by decide) _)
  exact hfeed.append (htitle.append (hfeed.append ((hsize.append htotal).append htime)))

/-- Whatever the colours, a summary of paths without escapes is shown as the one
without. -/
theorem stripped_text (colours : Bool) (elapsed : Duration) {f : Findings}
    (h : ∀ file ∈ f.files, '\x1b' ∉ file.path.toList) :
    stripped (text colours elapsed f).toList = (text false elapsed f).toList := by
  rw [toList_text, toList_text]
  exact ((shows_heading colours elapsed f).append
    (.flatMap fun file hfile => shows_fileLine colours (h file hfile))).stripped

/-! ### The numbers of a summary -/

/-- The numbers in a text, in order: its longest stretches of digits. -/
def numbers (cs : List Char) : List Nat :=
  ((cs.splitOnP fun c => !c.isDigit).filter fun ds => !ds.isEmpty).map
    fun ds => Nat.ofDigitChars 10 ds 0

/-- A character that is no digit parts the numbers before it from those after it. -/
theorem numbers_append {c : Char} (hc : c.isDigit = false) (cs ds : List Char) :
    numbers (cs ++ c :: ds) = numbers cs ++ numbers ds := by
  have hparts : !c.isDigit := by rw [hc]; rfl
  rw [numbers, List.splitOnP_append_cons cs ds hparts, List.filter_append, List.map_append]
  rfl

theorem numbers_words {cs : List Char} (h : cs.all fun c => !c.isDigit) : numbers cs = [] := by
  induction cs with
  | nil => rfl
  | cons c cs ih =>
    obtain ⟨hc, hcs⟩ := Bool.and_eq_true_iff.mp h
    have hdigit : c.isDigit = false := by simpa using hc
    have hparts := numbers_append hdigit [] cs
    rwa [ih hcs, List.append_nil] at hparts

theorem numbers_toDigits (n : Nat) : numbers (Nat.toDigits 10 n) = [n] := by
  have hdigits : ∀ c ∈ Nat.toDigits 10 n, (!c.isDigit) = false := by
    intro c hc
    rw [isDigit_of_mem_toDigits hc]
    rfl
  rw [numbers, List.splitOnP_eq_singleton hdigits]
  have hsome : (Nat.toDigits 10 n).isEmpty = false :=
    List.isEmpty_eq_false_iff.mpr Nat.toDigits_ne_nil
  simp [hsome, Nat.ofDigitChars_toDigits]

theorem numbers_line {start : String} (hstart : start.toList.all fun c => !c.isDigit)
    (rest cs : List Char) :
    numbers (line false start rest ++ cs) = numbers rest ++ numbers cs := by
  have hline : line false start rest ++ cs = start.toList ++ ' ' :: (rest ++ '\n' :: cs) := by
    simp [line, on]
  rw [hline, numbers_append (by decide), numbers_append (by decide), numbers_words hstart,
    List.nil_append]

/-- A count between parentheses comes after all numbers before it. -/
theorem numbers_count (cs : List Char) (n : Nat) :
    numbers (cs ++ '(' :: (Nat.toDigits 10 n ++ ')' :: ['\n'])) = numbers cs ++ [n] := by
  have hend : numbers ['\n'] = [] := numbers_words (by decide)
  rw [numbers_append (by decide) cs, numbers_append (by decide) (Nat.toDigits 10 n),
    numbers_toDigits, hend, List.append_nil]

/-- The number of files comes first and the number of issues second. -/
theorem numbers_text (elapsed : Duration) (f : Findings) :
    ∃ later, numbers (text false elapsed f).toList = f.size :: f.total :: later := by
  have htext : (text false elapsed f).toList =
      "\nScan Complete".toList ++ '\n' ::
        (line false "Files with issues:" (Nat.toDigits 10 f.size) ++
          (line false "Total issues:" (Nat.toDigits 10 f.total) ++
            (line false "Time elapsed:" (elapsedText elapsed) ++
              f.files.flatMap (fileLine false)))) := by
    rw [toList_text, heading]
    simp [on]
  rw [htext, numbers_append (by decide), numbers_words (by decide), numbers_line (by decide),
    numbers_line (by decide), numbers_toDigits, numbers_toDigits]
  exact ⟨_, rfl⟩

/-- The last number in a text. -/
def lastNumber (cs : List Char) : Nat :=
  (numbers cs).getLastD 0

/-- The line tells of a file its path and, as its last number, how many issues it
has. -/
structure Tells (file : FileIssues) (line : List Char) : Prop where
  path : ∃ count, (∀ c ∈ count, c.isDigit) ∧
    line = "  ".toList ++ file.path.toList ++ " (".toList ++ count ++ ")\n".toList
  lastNumber_eq : lastNumber line = file.issues.length

theorem tells_fileLine (file : FileIssues) : Tells file (fileLine false file) := by
  have hline : fileLine false file =
      ("  ".toList ++ file.path.toList ++ [' ']) ++
        '(' :: (Nat.toDigits 10 file.issues.length ++ ')' :: ['\n']) := by
    simp [fileLine, on]
  constructor
  · refine ⟨Nat.toDigits 10 file.issues.length, fun c hc => isDigit_of_mem_toDigits hc, ?_⟩
    rw [hline]
    simp
  · rw [lastNumber, hline, numbers_count, List.getLastD_concat]

/-- The files stand after five lines. -/
theorem count_heading (elapsed : Duration) (f : Findings) :
    (heading false elapsed f).count '\n' = 5 ∧
      (heading false elapsed f).getLast? = some '\n' := by
  have hline : ∀ (start : String) (rest : List Char), '\n' ∉ start.toList → '\n' ∉ rest →
      (line false start rest).count '\n' = 1 := by
    intro start rest hstart hrest
    simp [line, on, List.count_eq_zero_of_not_mem hstart, List.count_eq_zero_of_not_mem hrest]
  have htitle : ("Scan Complete".toList).count '\n' = 0 := by decide
  have hsize := hline "Files with issues:" _ (by decide) (not_mem_toDigits (by decide) f.size)
  have htotal := hline "Total issues:" _ (by decide) (not_mem_toDigits (by decide) f.total)
  have htime := hline "Time elapsed:" _ (by decide)
    (not_mem_elapsedText (by decide) (by decide) elapsed)
  constructor
  · rw [heading, List.count_cons_self, List.count_append, List.count_cons_self,
      List.count_append, List.count_append, hsize, htotal, htime, on, if_neg (by decide), htitle]
  · simp [heading, line, List.getLast?_append, List.getLast?_cons]

/-- **Colour does not change a summary, and its numbers add up.**  Without the
sequences for the terminal the summary of paths without escapes is the one without
colours; of this the first two numbers are the number of files and the sum of the
numbers at the ends of the lines after the fifth, each of which tells of a file, in
order. -/
theorem text_colourless (elapsed : Duration) (f : Findings) :
    ((∀ file ∈ f.files, '\x1b' ∉ file.path.toList) →
      stripped (text true elapsed f).toList = (text false elapsed f).toList) ∧
    ∃ start lines, (text false elapsed f).toList = start ++ lines.flatten ∧
      start.count '\n' = 5 ∧ start.getLast? = some '\n' ∧ List.Forall₂ Tells f.files lines ∧
      (numbers (text false elapsed f).toList).take 2 =
        [f.files.length, (lines.map lastNumber).sum] := by
  refine ⟨stripped_text true elapsed, heading false elapsed f, f.files.map (fileLine false), ?_,
    (count_heading elapsed f).1, (count_heading elapsed f).2, ?_, ?_⟩
  · rw [toList_text, List.flatMap_def]
  · rw [List.forall₂_map_right_iff, List.forall₂_same]
    exact fun file _ => tells_fileLine file
  · obtain ⟨later, hnumbers⟩ := numbers_text elapsed f
    have hsum : f.total = ((f.files.map (fileLine false)).map lastNumber).sum := by
      rw [Findings.total_eq, List.map_map, List.map_map]
      refine congrArg List.sum (List.map_congr_left fun file _ => ?_)
      exact (tells_fileLine file).lastNumber_eq.symm
    rw [hnumbers, hsum]
    rfl

/-- A file whose path looks like parts of a sequence and like a line of a file. -/
def lookalike : Findings :=
  ⟨[⟨"[0m", ["a", "b"], by simp⟩, ⟨"31m (7)\n  ;", ["c"], by simp⟩]⟩

theorem lookalike_text_colourless :
    (∀ file ∈ lookalike.files, '\x1b' ∉ file.path.toList) ∧
      stripped (text true ⟨1, 500000000⟩ lookalike).toList =
        (text false ⟨1, 500000000⟩ lookalike).toList ∧
      ∃ lines, List.Forall₂ Tells lookalike.files lines ∧
        (numbers (text false ⟨1, 500000000⟩ lookalike).toList).take 2 =
          [2, (lines.map lastNumber).sum] := by
  have hpaths : ∀ file ∈ lookalike.files, '\x1b' ∉ file.path.toList := by decide
  obtain ⟨hcolour, -, lines, -, -, -, htells, hnumbers⟩ :=
    text_colourless ⟨1, 500000000⟩ lookalike
  exact ⟨hpaths, hcolour hpaths, lines, htells, hnumbers⟩

end Summary

end WorkspaceAudit

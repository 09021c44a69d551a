/-
WorkspaceAudit/Proofs/Toml/Digits.lean

Digits are read back.

The digits that a number is written in have it as their value, whatever zeros stand
before them (`ofDigits_padded`), and a reader of digits takes them all and stops at
what is none (`reads_digits`).
-/
import Mathlib.Algebra.Group.Nat.Defs
import WorkspaceAudit.Proofs.Toml.Lines
import WorkspaceAudit.Proofs.Toml.Printing

namespace WorkspaceAudit.Toml

open Reader

variable {r s : List Char}

/-! ### Digits -/

theorem ofDigits_eq {ds : List Char} (h : ∀ d ∈ ds, d.isDigit) :
    ofDigits 10 ds = Nat.ofDigitChars 10 ds 0 := by
  -- both are folds; on any number that was read before
  have key : ∀ n, ds.foldl (fun n d => n * 10 + digitValue d) n = Nat.ofDigitChars 10 ds n := by
    induction ds with
    | nil => exact fun n => rfl
    | cons d ds ih =>
      obtain ⟨hd, hds⟩ := List.forall_mem_cons.mp h
      intro n
      rw [List.foldl_cons, ih hds, Nat.ofDigitChars_cons, digitValue, if_pos hd, Nat.mul_comm]
  exact key 0

theorem ofDigits_toDigits (n : Nat) : ofDigits 10 (Nat.toDigits 10 n) = n := by
  rw [ofDigits_eq fun _ h => isDigit_of_mem_toDigits h, Nat.ofDigitChars_ten_toDigits]

theorem ofDigits_append {ds es : List Char} (hds : ∀ d ∈ ds, d.isDigit)
    (hes : ∀ d ∈ es, d.isDigit) :
    ofDigits 10 (ds ++ es) = 10 ^ es.length * ofDigits 10 ds + ofDigits 10 es := by
  have hboth : ∀ d ∈ ds ++ es, d.isDigit := fun d hd => (List.mem_append.mp hd).elim (hds d) (hes d)
  rw [ofDigits_eq hboth, ofDigits_eq hds, ofDigits_eq hes, Nat.ofDigitChars_append,
    Nat.ofDigitChars_eq_ofDigitChars_zero]

theorem ofDigits_replicate_append {ds : List Char} (hds : ∀ d ∈ ds, d.isDigit) (n : Nat) :
    ofDigits 10 (List.replicate n '0' ++ ds) = ofDigits 10 ds := by
  have hzeros : ∀ d ∈ List.replicate n '0', d.isDigit := fun d hd => isDigit_of_mem_zeros hd
  rw [ofDigits_append hzeros hds, ofDigits_eq hzeros, Nat.ofDigitChars_replicate_zero,
    Nat.mul_zero, Nat.mul_zero, Nat.zero_add]

theorem ofDigits_append_zeros {ds : List Char} (hds : ∀ d ∈ ds, d.isDigit) (n : ℕ) :
    ofDigits 10 (ds ++ List.replicate n '0') = 10 ^ n * ofDigits 10 ds := by
  have hzeros : ∀ d ∈ List.replicate n '0', d.isDigit := fun d hd => isDigit_of_mem_zeros hd
  have hnone : ofDigits 10 (List.replicate n '0' ++ []) = ofDigits 10 [] :=
    ofDigits_replicate_append (by simp) n
  rw [List.append_nil] at hnone
  rw [ofDigits_append hds hzeros, hnone, List.length_replicate]
  rfl

/-- A padded number has so many digits, and they write it. -/
theorem length_padded {width n : Nat} (hwidth : 0 < width) (hn : n < 10 ^ width) :
    (padded width n).length = width := by
  have hle := (Nat.length_toDigits_le_iff (by decide) hwidth).mpr hn
  rw [padded, List.length_append, List.length_replicate]
  omega

theorem ofDigits_padded (width n : Nat) : ofDigits 10 (padded width n) = n := by
  rw [padded, ofDigits_replicate_append fun _ h => isDigit_of_mem_toDigits h, ofDigits_toDigits]

/-- The zeros that end a text are those that are left out. -/
theorem trimmed_append (cs : List Char) :
    (cs.reverse.dropWhile (· == '0')).reverse ++ List.replicate
      (cs.length - (cs.reverse.dropWhile (· == '0')).reverse.length) '0' = cs := by
  have hzeros : cs.reverse.takeWhile (· == '0') =
      List.replicate (cs.reverse.takeWhile (· == '0')).length '0' := by
    refine List.eq_replicate_iff.mpr ⟨rfl, fun c hc => ?_⟩
    have hall := List.all_takeWhile (p := (· == '0')) (l := cs.reverse)
    simpa using List.all_eq_true.mp hall c hc
  have hsplit := List.takeWhile_append_dropWhile (p := (· == '0')) (l := cs.reverse)
  have hlength := congrArg List.length hsplit
  rw [List.length_append, List.length_reverse] at hlength
  have hrest : cs.length - (cs.reverse.dropWhile (· == '0')).reverse.length =
      (cs.reverse.takeWhile (· == '0')).length := by
    rw [List.length_reverse]
    omega
  rw [hrest, ← List.reverse_inj, List.reverse_append, List.reverse_reverse,
    List.reverse_replicate, ← hzeros, hsplit]

/-- Digits are read to their end. -/
theorem reads_digitsFrom {ds : List Char} (hds : ∀ d ∈ ds, d.isDigit)
    (hs : Stops (fun c => c.isDigit || c == '_') s) (soFar : List Char) :
    Reads (digitsFrom Char.isDigit soFar) (ds ++ s) (soFar.reverse ++ ds) s := by
  have hunderscore : ∀ d : Char, d.isDigit = true → d ≠ '_' := by
    rintro _ h rfl
    cases h
  -- on the digits still to come, with those already read in front
  induction ds generalizing soFar with
  | nil =>
    rw [List.append_nil, List.nil_append, Reads]
    cases s with
    | nil => rw [digitsFrom]
    | cons c s =>
      have hc : (c.isDigit || c == '_') = false := hs c rfl
      obtain ⟨hdigit, hc⟩ := Bool.or_eq_false_iff.mp hc
      have hc := beq_eq_false_iff_ne.mp hc
      rw [digitsFrom, if_neg (Bool.eq_false_iff.mp hdigit)]
      · rintro d t rfl
        exact absurd rfl hc
      · rintro rfl
        exact absurd rfl hc
  | cons d ds ih =>
    obtain ⟨hd, hds⟩ := List.forall_mem_cons.mp hds
    have hrest := ih hds (d :: soFar)
    rw [List.reverse_cons, List.append_assoc, List.singleton_append] at hrest
    rw [Reads, List.cons_append, digitsFrom, if_pos hd]
    · exact hrest
    · rintro e t rfl
      exact absurd rfl (hunderscore _ hd)
    · rintro rfl
      exact absurd rfl (hunderscore _ hd)

theorem reads_digits {ds : List Char} (hne : ds ≠ []) (hds : ∀ d ∈ ds, d.isDigit)
    (hs : Stops (fun c => c.isDigit || c == '_') s) :
    Reads (digits Char.isDigit) (ds ++ s) ds s := by
  cases ds with
  | nil => exact absurd rfl hne
  | cons d ds =>
    obtain ⟨hd, hds⟩ := List.forall_mem_cons.mp hds
    rw [Reads, List.cons_append, digits, if_pos hd]
    exact reads_digitsFrom hds hs [d]

end WorkspaceAudit.Toml

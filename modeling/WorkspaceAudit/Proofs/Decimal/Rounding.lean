/-
WorkspaceAudit/Proofs/Decimal/Rounding.lean

What rounds to a number.

Ratios are compared as rationals.  A positive number of the format has a significand
and an exponent that fit it (`Fits`), and around it lie the rationals that are nearest
to it (`Near`): half the distance to the next number on either side, and the ends only
if the significand is even.  Below a power of two the numbers lie twice as dense, so
the neighbourhood of one reaches half as far down.

Rounding is exact about that: what lies near a number is rounded to it, whichever
ratio writes it (`round_of_near`).  First the exponent is the right one, or one less
for what lies just below a power of two (`exponentFor_eq`), and then the significand
is, in that case after a carry (`divNearest_eq`).
-/
import Mathlib.Algebra.Order.Field.Power
import Mathlib.Data.Rat.Cast.Order
import Mathlib.Tactic.FieldSimp
import Mathlib.Tactic.Linarith
import Mathlib.Tactic.Positivity
import Mathlib.Tactic.Ring
import WorkspaceAudit.Decimal.Binary64
import WorkspaceAudit.Proofs.Text.Digits

namespace WorkspaceAudit.Binary64

/-! ### Powers as ratios -/

theorem zpow_eq_div {b : ℕ} (hb : 0 < b) (e : ℤ) :
    ((if e < 0 then (1, Nat.pow b (-e).toNat) else (Nat.pow b e.toNat, 1) : ℕ × ℕ).1 : ℚ) /
      (if e < 0 then (1, Nat.pow b (-e).toNat) else (Nat.pow b e.toNat, 1) : ℕ × ℕ).2 =
        (b : ℚ) ^ e := by
  have hb' : (b : ℚ) ≠ 0 := by positivity
  split
  · next hneg =>
    have he : e = -((-e).toNat : ℤ) := by omega
    rw [Nat.pow_eq, Nat.cast_one, Nat.cast_pow, one_div]
    conv_rhs => rw [he, zpow_neg, zpow_natCast]
  · next hpos =>
    have he : e = (e.toNat : ℤ) := by omega
    rw [Nat.pow_eq, Nat.cast_one, Nat.cast_pow, div_one]
    conv_rhs => rw [he, zpow_natCast]

theorem powerOfTwo_div (e : ℤ) : ((powerOfTwo e).1 : ℚ) / (powerOfTwo e).2 = 2 ^ e :=
  zpow_eq_div (by decide) e

theorem powerOfTen_div (e : ℤ) : ((powerOfTen e).1 : ℚ) / (powerOfTen e).2 = 10 ^ e :=
  zpow_eq_div (by decide) e

theorem pos_of_div {p q : ℕ} (h : 0 < (p : ℚ) / q) : 0 < p ∧ 0 < q := by
  rcases Nat.eq_zero_or_pos p with rfl | hp
  · simp at h
  rcases Nat.eq_zero_or_pos q with rfl | hq
  · simp at h
  exact ⟨hp, hq⟩

theorem powerOfTwo_pos (e : ℤ) : 0 < (powerOfTwo e).1 ∧ 0 < (powerOfTwo e).2 :=
  pos_of_div (by rw [powerOfTwo_div]; positivity)

theorem powerOfTen_pos (e : ℤ) : 0 < (powerOfTen e).1 ∧ 0 < (powerOfTen e).2 :=
  pos_of_div (by rw [powerOfTen_div]; positivity)

/-! ### The nearest integer -/

/-- The integer is nearest to the rational: at most half away, and half away only if
it is even. -/
def Nearest (n : ℕ) (y : ℚ) : Prop :=
  ((n : ℚ) - 1 / 2 ≤ y ∧ y ≤ n + 1 / 2) ∧ (n % 2 = 1 → (n : ℚ) - 1 / 2 < y ∧ y < n + 1 / 2)

theorem divNearest_eq {num den n : ℕ} (hden : 0 < den) (h : Nearest n (num / den)) :
    divNearest num den = n := by
  obtain ⟨⟨hlow, hhigh⟩, hodd⟩ := h
  have hden' : (0 : ℚ) < den := by positivity
  -- all bounds as inequalities of naturals, with the quotient and the remainder
  have hlow : 2 * (den * n) ≤ 2 * num + den := by
    rw [le_div_iff₀ hden'] at hlow
    have hcast : (2 * (den * n) : ℚ) ≤ 2 * num + den := by linarith
    exact_mod_cast hcast
  have hhigh : 2 * num ≤ 2 * (den * n) + den := by
    rw [div_le_iff₀ hden'] at hhigh
    have hcast : (2 * num : ℚ) ≤ 2 * (den * n) + den := by linarith
    exact_mod_cast hcast
  have hstrict : n % 2 = 1 → 2 * (den * n) < 2 * num + den ∧ 2 * num < 2 * (den * n) + den := by
    intro hn
    obtain ⟨hlow, hhigh⟩ := hodd hn
    rw [lt_div_iff₀ hden'] at hlow
    rw [div_lt_iff₀ hden'] at hhigh
    have hcast : (2 * (den * n) : ℚ) < 2 * num + den := by linarith
    have hcast' : (2 * num : ℚ) < 2 * (den * n) + den := by linarith
    exact ⟨by exact_mod_cast hcast, by exact_mod_cast hcast'⟩
  have hsplit := Nat.div_add_mod num den
  have hrest := Nat.mod_lt num hden
  have hle : n ≤ num / den + 1 := by
    by_contra hgt
    have hmul : den * (num / den + 2) ≤ den * n := Nat.mul_le_mul_left den (by omega)
    rw [Nat.mul_add] at hmul
    omega
  have hge : num / den ≤ n := by
    by_contra hlt
    have hmul : den * (n + 1) ≤ den * (num / den) := Nat.mul_le_mul_left den (by omega)
    rw [Nat.mul_add] at hmul
    omega
  unfold divNearest
  dsimp only
  rcases Nat.eq_or_lt_of_le hge with hq | hq
  · rw [hq] at hsplit ⊢
    rw [if_pos]
    simp only [Bool.or_eq_true, decide_eq_true_eq, Bool.and_eq_true, beq_iff_eq]
    omega
  · have hn : n = num / den + 1 := by omega
    rw [hn, Nat.mul_add] at hlow hhigh hstrict
    rw [if_neg, hn]
    simp only [Bool.or_eq_true, decide_eq_true_eq, Bool.and_eq_true, beq_iff_eq]
    omega

/-! ### The exponent -/

theorem log2_bounds {n : ℕ} (hn : 0 < n) :
    (2 : ℚ) ^ (n.log2 : ℤ) ≤ n ∧ (n : ℚ) < 2 ^ ((n.log2 : ℤ) + 1) := by
  have hlow := Nat.log2_self_le (Nat.ne_of_gt hn)
  have hhigh := Nat.lt_log2_self (n := n)
  have hsucc : (n.log2 : ℤ) + 1 = ((n.log2 + 1 : ℕ) : ℤ) := by omega
  rw [hsucc, zpow_natCast, zpow_natCast]
  exact ⟨by exact_mod_cast hlow, by exact_mod_cast hhigh⟩

/-- The exponent is the one at which a ratio has 53 bits before the point, or less if
that is the least exponent. -/
theorem exponentFor_eq {num den : ℕ} {e : ℤ} (hnum : 0 < num) (hden : 0 < den)
    (he : minExponent ≤ e) (hhigh : (num : ℚ) / den < 2 ^ (53 + e))
    (hlow : e = minExponent ∨ (2 : ℚ) ^ (52 + e) ≤ num / den) : exponentFor num den = e := by
  have htwo : (1 : ℚ) < 2 := by norm_num
  have hden' : (0 : ℚ) < den := by positivity
  obtain ⟨hnumLow, hnumHigh⟩ := log2_bounds hnum
  obtain ⟨hdenLow, hdenHigh⟩ := log2_bounds hden
  obtain ⟨y, hy⟩ : ∃ y : ℚ, y = num / den := ⟨_, rfl⟩
  obtain ⟨e₀, he₀⟩ : ∃ e₀ : ℤ, e₀ = (num.log2 : ℤ) - den.log2 - 53 := ⟨_, rfl⟩
  have hbelow : (2 : ℚ) ^ (52 + e₀) ≤ y := by
    have hdiff : 52 + e₀ = num.log2 - (den.log2 + 1) := by omega
    rw [hdiff, zpow_sub₀ two_ne_zero, hy]
    exact div_le_div₀ (by positivity) hnumLow hden' hdenHigh.le
  have habove : y < (2 : ℚ) ^ (54 + e₀) := by
    have hdiff : 54 + e₀ = (num.log2 + 1) - den.log2 := by omega
    rw [hdiff, zpow_sub₀ two_ne_zero, hy]
    exact div_lt_div₀ hnumHigh hdenLow (by positivity) (by positivity)
  have htest : num * (powerOfTwo e₀).2 / (den * (powerOfTwo e₀).1) < significandEnd ↔
      y < 2 ^ (53 + e₀) := by
    obtain ⟨hp, hq⟩ := powerOfTwo_pos e₀
    have hq' : (0 : ℚ) < (powerOfTwo e₀).2 := by positivity
    rw [Nat.div_lt_iff_lt_mul (Nat.mul_pos hden hp), zpow_add₀ two_ne_zero, ← powerOfTwo_div e₀, hy,
      div_lt_iff₀ hden', mul_div_assoc', div_mul_eq_mul_div, lt_div_iff₀ hq']
    rw [significandEnd, Nat.pow_eq, ← Nat.cast_lt (α := ℚ)]
    push_cast
    rw [mul_assoc, mul_comm (den : ℚ)]
  rw [← hy] at hhigh hlow
  -- the logarithms leave two exponents, and the test decides between them
  have hchoice : ∃ e₁, (if num * (powerOfTwo e₀).2 / (den * (powerOfTwo e₀).1) < significandEnd
      then e₀ else e₀ + 1) = e₁ ∧ (2 : ℚ) ^ (52 + e₁) ≤ y ∧ y < 2 ^ (53 + e₁) := by
    by_cases h : y < 2 ^ (53 + e₀)
    · exact ⟨e₀, if_pos (htest.mpr h), hbelow, h⟩
    · refine ⟨e₀ + 1, if_neg (mt htest.mp h), ?_, ?_⟩
      · have hsum : 52 + (e₀ + 1) = 53 + e₀ := by ring
        rw [hsum]
        exact not_lt.mp h
      · have hsum : 53 + (e₀ + 1) = 54 + e₀ := by ring
        rw [hsum]
        exact habove
  obtain ⟨e₁, hif, hlow₁, hhigh₁⟩ := hchoice
  rw [exponentFor]
  dsimp only
  rw [← he₀, hif]
  have hle : e₁ ≤ e := by
    have hlt := (zpow_lt_zpow_iff_right₀ htwo).mp (lt_of_le_of_lt hlow₁ hhigh)
    omega
  rcases hlow with rfl | hlow
  · exact max_eq_right hle
  · have hge := (zpow_lt_zpow_iff_right₀ htwo).mp (lt_of_le_of_lt hlow hhigh₁)
    obtain rfl : e₁ = e := by omega
    exact max_eq_left he

/-! ### The neighbourhood of a number -/

/-- The significand and the exponent of a positive number of the format: 53 bits, and
fewer only at the least exponent. -/
structure Fits (m : ℕ) (e : ℤ) : Prop where
  pos : 0 < m
  lt : m < 2 ^ 53
  normal : e = minExponent ∨ 2 ^ 52 ≤ m
  low : minExponent ≤ e
  high : e ≤ maxExponent

/-- What the format holds: the finite numbers that fit it, a zero and an infinity of
each sign, and what is no number. -/
inductive Canonical : Binary64 → Prop
  | nan : Canonical .nan
  | infinite (negative : Bool) : Canonical (.infinite negative)
  | zero (negative : Bool) : Canonical (zero negative)
  | finite (negative : Bool) {m : ℕ} {e : ℤ} : Fits m e → Canonical (.finite negative m e)

/-- How far the neighbourhood of a number reaches down, in units of its last place. -/
def reach (m : ℕ) (e : ℤ) : ℚ :=
  if m = 2 ^ 52 ∧ minExponent < e then 1 / 4 else 1 / 2

/-- The rational is nearest to this number of all in the format, or as near as another
one and this one is even. -/
def Near (m : ℕ) (e : ℤ) (y : ℚ) : Prop :=
  ((m - reach m e) * 2 ^ e ≤ y ∧ y ≤ (m + 1 / 2) * 2 ^ e) ∧
    (m % 2 = 1 → (m - reach m e) * 2 ^ e < y ∧ y < (m + 1 / 2) * 2 ^ e)

theorem reach_bounds (m : ℕ) (e : ℤ) : 1 / 4 ≤ reach m e ∧ reach m e ≤ 1 / 2 := by
  rw [reach]
  split <;> norm_num

theorem near_mul_iff {m : ℕ} {e : ℤ} {u : ℚ} :
    Near m e (u * 2 ^ e) ↔
      (m - reach m e ≤ u ∧ u ≤ m + 1 / 2) ∧
        (m % 2 = 1 → m - reach m e < u ∧ u < m + 1 / 2) := by
  have hpos : (0 : ℚ) < 2 ^ e := by positivity
  simp only [Near, mul_le_mul_iff_left₀ hpos, mul_lt_mul_iff_left₀ hpos]

theorem scaled_div (num den : ℕ) (e : ℤ) :
    ((num * (powerOfTwo e).2 : ℕ) : ℚ) / (den * (powerOfTwo e).1 : ℕ) = num / den / 2 ^ e := by
  rw [← powerOfTwo_div e]
  push_cast
  rw [div_div_div_eq, mul_comm]

/-- A ratio is rounded to the nearest significand at its exponent, with a carry. -/
theorem round_eq_of_nearest {m num den : ℕ} {e : ℤ} (hnum : 0 < num) (hden : 0 < den)
    (hexp : exponentFor num den = e) (h : Nearest m (num / den / 2 ^ e)) (negative : Bool) :
    round negative num den =
      let (m, e) := if m = 2 ^ 53 then (m / 2, e + 1) else (m, e)
      if maxExponent < e then .infinite negative else .finite negative m e := by
  have hend : significandEnd = 2 ^ 53 := rfl
  have hnearest : divNearest (num * (powerOfTwo e).2) (den * (powerOfTwo e).1) = m := by
    refine divNearest_eq (Nat.mul_pos hden (powerOfTwo_pos e).1) ?_
    rw [scaled_div]
    exact h
  simp only [round, if_neg (Nat.ne_of_gt hnum), hexp, hnearest, hend]

/-- **What lies near a number rounds to it.** -/
theorem round_of_near {m num den : ℕ} {e : ℤ} (hm : Fits m e) (hden : 0 < den)
    (h : Near m e (num / den)) (negative : Bool) :
    round negative num den = .finite negative m e := by
  have hreach := reach_bounds m e
  have hpos : (0 : ℚ) < 2 ^ e := by positivity
  have hmax : ¬ maxExponent < e := not_lt.mpr hm.high
  have hone : (1 : ℚ) ≤ m := by exact_mod_cast hm.pos
  have hlt : (m : ℚ) + 1 ≤ 2 ^ 53 := by exact_mod_cast hm.lt
  obtain ⟨u, hu⟩ : ∃ u : ℚ, u = num / den / 2 ^ e := ⟨_, rfl⟩
  have hy : (num : ℚ) / den = u * 2 ^ e := by
    rw [hu]
    field_simp
  rw [hy, near_mul_iff] at h
  obtain ⟨⟨hlow, hhigh⟩, hodd⟩ := h
  have hnum : 0 < num := by
    have hratio : 0 < (num : ℚ) / den := by
      rw [hy]
      exact mul_pos (by linarith) hpos
    exact (pos_of_div hratio).1
  by_cases hbelow : e ≠ minExponent ∧ u < 2 ^ 52
  · -- just below a power of two: one exponent less, and a carry back
    obtain ⟨hne, hu52⟩ := hbelow
    have hgt : minExponent < e := lt_of_le_of_ne hm.low (Ne.symm hne)
    have hm52 : m = 2 ^ 52 := by
      by_contra hother
      have hge : 2 ^ 52 + 1 ≤ m := by have := hm.normal.resolve_left hne; omega
      have hcast : (2 : ℚ) ^ 52 + 1 ≤ m := by exact_mod_cast hge
      linarith
    have hquarter : (2 : ℚ) ^ 52 - 1 / 4 ≤ u := by
      rw [hm52, reach, if_pos ⟨rfl, hgt⟩] at hlow
      exact_mod_cast hlow
    have htwice : (num : ℚ) / den = 2 * u * 2 ^ (e - 1) := by
      rw [hy, zpow_sub_one₀ two_ne_zero]
      ring
    have hpos' : (0 : ℚ) < 2 ^ (e - 1) := by positivity
    have hexp : exponentFor num den = e - 1 := by
      refine exponentFor_eq hnum hden (by omega) ?_ (.inr ?_)
      · rw [htwice, zpow_add₀ two_ne_zero]
        exact mul_lt_mul_of_pos_right (by norm_num; linarith) hpos'
      · rw [htwice, zpow_add₀ two_ne_zero]
        exact mul_le_mul_of_nonneg_right (by norm_num; linarith) hpos'.le
    have hnear : Nearest (2 ^ 53) (num / den / 2 ^ (e - 1)) := by
      rw [htwice, mul_div_cancel_right₀ _ hpos'.ne']
      refine ⟨⟨?_, ?_⟩, nofun⟩
      · push_cast
        linarith
      · push_cast
        linarith
    have hcarry : (2 ^ 53 / 2, e - 1 + 1) = ((m, e) : ℕ × ℤ) := by
      rw [hm52, sub_add_cancel]
      norm_num
    rw [round_eq_of_nearest hnum hden hexp hnear, if_pos rfl, hcarry]
    exact if_neg hmax
  · have hexp : exponentFor num den = e := by
      refine exponentFor_eq hnum hden hm.low ?_ ?_
      · rw [hy, zpow_add₀ two_ne_zero]
        exact mul_lt_mul_of_pos_right (by norm_num; linarith) hpos
      · refine or_iff_not_imp_left.mpr fun hne => ?_
        have hu52 : (2 : ℚ) ^ 52 ≤ u := not_lt.mp fun hlt => hbelow ⟨hne, hlt⟩
        rw [hy, zpow_add₀ two_ne_zero]
        exact mul_le_mul_of_nonneg_right (by exact_mod_cast hu52) hpos.le
    have hnear : Nearest m (num / den / 2 ^ e) := by
      rw [← hu]
      exact ⟨⟨by linarith, hhigh⟩, fun hm => ⟨by linarith [(hodd hm).1], (hodd hm).2⟩⟩
    rw [round_eq_of_nearest hnum hden hexp hnear, if_neg (Nat.ne_of_lt hm.lt)]
    exact if_neg hmax

/-! ### Decimal numbers -/

theorem toDigits_bounds {n : ℕ} (hn : 0 < n) :
    (10 : ℚ) ^ (((Nat.toDigits 10 n).length : ℤ) - 1) ≤ n ∧
      (n : ℚ) < 10 ^ ((Nat.toDigits 10 n).length : ℤ) := by
  have hpos : 0 < (Nat.toDigits 10 n).length := Nat.length_toDigits_pos
  have hpred : ((Nat.toDigits 10 n).length : ℤ) - 1 =
      (((Nat.toDigits 10 n).length - 1 : ℕ) : ℤ) := by omega
  rw [hpred, zpow_natCast, zpow_natCast]
  exact ⟨by exact_mod_cast pow_length_toDigits_le hn, by exact_mod_cast lt_pow_length_toDigits n⟩

theorem Near.pos {m : ℕ} {e : ℤ} {y : ℚ} (hm : Fits m e) (h : Near m e y) : 0 < y := by
  have hreach := reach_bounds m e
  have hone : (1 : ℚ) ≤ m := by exact_mod_cast hm.pos
  have hpos : (0 : ℚ) < 2 ^ e := by positivity
  exact lt_of_lt_of_le (mul_pos (by linarith) hpos) h.1.1

/-- The least numbers of the format lie above the first power of ten, the greatest below
the second. -/
theorem powerOfTen_limits :
    (10 : ℚ) ^ (-400 : ℤ) ≤ 2 ^ (-1075 : ℤ) ∧ (2 : ℚ) ^ (1024 : ℤ) < 10 ^ (400 : ℤ) := by
  have hlow : 2 ^ 1075 ≤ 10 ^ 400 := by decide +kernel
  have hhigh : 2 ^ 1024 < 10 ^ 400 := by decide +kernel
  rw [zpow_neg, zpow_neg, zpow_ofNat, zpow_ofNat, zpow_ofNat]
  exact ⟨inv_anti₀ (by positivity) (by exact_mod_cast hlow), by exact_mod_cast hhigh⟩

/-- **A decimal near a number is read as the number.** -/
theorem ofDecimal_of_near {m : ℕ} {e : ℤ} (hm : Fits m e) {digits : ℕ} {k : ℤ}
    (h : Near m e (digits * 10 ^ k)) (negative : Bool) :
    ofDecimal negative digits k = .finite negative m e := by
  have hreach := reach_bounds m e
  have hone : (1 : ℚ) ≤ m := by exact_mod_cast hm.pos
  have hlt : (m : ℚ) + 1 ≤ 2 ^ 53 := by exact_mod_cast hm.lt
  have hpos : (0 : ℚ) < 2 ^ e := by positivity
  have hten : (0 : ℚ) < 10 ^ k := by positivity
  have hdigits : 0 < digits := by
    rcases Nat.eq_zero_or_pos digits with rfl | hd
    · have hzero := h.pos hm
      simp at hzero
    · exact hd
  obtain ⟨hlow, hhigh⟩ := toDigits_bounds hdigits
  obtain ⟨size, hsize⟩ : ∃ size : ℤ, size = (Nat.toDigits 10 digits).length := ⟨_, rfl⟩
  rw [← hsize] at hlow hhigh
  -- the reader gives up beyond these two powers of ten, and no number of the format is there
  have hsmall : ¬ size + k < -400 := by
    intro hless
    have hup : (digits : ℚ) * 10 ^ k < 10 ^ (-400 : ℤ) :=
      calc (digits : ℚ) * 10 ^ k < 10 ^ size * 10 ^ k := mul_lt_mul_of_pos_right hhigh hten
        _ = 10 ^ (size + k) := (zpow_add₀ (by norm_num) _ _).symm
        _ ≤ 10 ^ (-400 : ℤ) := zpow_le_zpow_right₀ (by norm_num) hless.le
    have hdown : (10 : ℚ) ^ (-400 : ℤ) ≤ digits * 10 ^ k :=
      calc (10 : ℚ) ^ (-400 : ℤ) ≤ 2 ^ (-1 + -1074 : ℤ) := powerOfTen_limits.1
        _ = 1 / 2 * 2 ^ (-1074 : ℤ) := by rw [zpow_add₀ two_ne_zero, zpow_neg_one, one_div]
        _ ≤ (m - reach m e) * 2 ^ e :=
          mul_le_mul (by linarith) (zpow_le_zpow_right₀ (by norm_num) hm.low) (by positivity)
            (by linarith)
        _ ≤ digits * 10 ^ k := h.1.1
    linarith
  have hlarge : ¬ 400 < size + k := by
    intro hmore
    have hdown : (10 : ℚ) ^ (400 : ℤ) ≤ digits * 10 ^ k :=
      calc (10 : ℚ) ^ (400 : ℤ) ≤ 10 ^ (size - 1 + k) :=
            zpow_le_zpow_right₀ (by norm_num) (by omega)
        _ = 10 ^ (size - 1) * 10 ^ k := zpow_add₀ (by norm_num) _ _
        _ ≤ digits * 10 ^ k := mul_le_mul_of_nonneg_right hlow hten.le
    have hup : (digits : ℚ) * 10 ^ k < 10 ^ (400 : ℤ) :=
      calc (digits : ℚ) * 10 ^ k ≤ (m + 1 / 2) * 2 ^ e := h.1.2
        _ ≤ 2 ^ 53 * 2 ^ (971 : ℤ) :=
          mul_le_mul (by linarith) (zpow_le_zpow_right₀ (by norm_num) hm.high) (by positivity)
            (by positivity)
        _ = 2 ^ (53 + 971 : ℤ) := by rw [zpow_add₀ two_ne_zero, zpow_ofNat, zpow_ofNat]
        _ < 10 ^ (400 : ℤ) := powerOfTen_limits.2
    linarith
  have hratio : ((digits * (powerOfTen k).1 : ℕ) : ℚ) / (powerOfTen k).2 = digits * 10 ^ k := by
    rw [← powerOfTen_div, Nat.cast_mul, mul_div_assoc]
  have hround : round negative (digits * (powerOfTen k).1) (powerOfTen k).2 =
      .finite negative m e :=
    round_of_near hm (powerOfTen_pos k).2 (by rw [hratio]; exact h) negative
  simp only [ofDecimal, ← hsize, Nat.ne_of_gt hdigits, hsmall, hlarge, hround, decide_false,
    Bool.or_self, Bool.false_eq_true, if_false]

end WorkspaceAudit.Binary64

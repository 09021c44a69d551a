/-
WorkspaceAudit/Proofs/Decimal/Shortest.lean

The shortest digits of a number round to it.

The search goes from the grid of the first digit to finer ones and takes the first hit.
A hit lies near the number (`holds_iff`), so all that is to be shown is that there is
one.  On the seventeenth grid the spacing is at most ten to the minus sixteen of the
number, which is less than the neighbourhood reaches to either side, since two to the
fifty-four is less than two times ten to the sixteen (`near_floor_or_succ`).

A whole number is a hit itself, so its digits stop before the point; and near a number
that is not whole no whole one lies (`exponent_nonneg_of_whole`, `whole_of_near`).
-/
import Mathlib.Data.Nat.Cast.Order.Field
import WorkspaceAudit.Decimal.Shortest
import WorkspaceAudit.Proofs.Decimal.Rounding

namespace WorkspaceAudit.Decimal

open Binary64

variable {m : ℕ} {e : ℤ}

/-- The rational that a decimal writes. -/
def toRat (d : Decimal) : ℚ :=
  d.digits * 10 ^ d.exponent

/-! ### Hits -/

theorem neighbourhood_den_pos : 0 < (neighbourhood m e).den :=
  (powerOfTwo_pos (e - 2)).2

/-- A multiple of a quarter of the last place, over the denominator. -/
theorem quarters_div (n : ℕ) :
    ((n * (powerOfTwo (e - 2)).1 : ℕ) : ℚ) / (powerOfTwo (e - 2)).2 = n / 4 * 2 ^ e := by
  rw [Nat.cast_mul, mul_div_assoc, powerOfTwo_div, zpow_sub₀ two_ne_zero]
  norm_num
  ring

theorem neighbourhood_low (hm : 0 < m) :
    ((neighbourhood m e).low : ℚ) / (neighbourhood m e).den = (m - reach m e) * 2 ^ e := by
  have hlow : (neighbourhood m e).low =
      (4 * m - if m = 2 ^ 52 ∧ minExponent < e then 1 else 2) * (powerOfTwo (e - 2)).1 := by
    simp [neighbourhood]
  have hden : (neighbourhood m e).den = (powerOfTwo (e - 2)).2 := rfl
  rw [hlow, hden, quarters_div, Nat.cast_sub (by split <;> omega), reach]
  split
  · push_cast
    ring
  · push_cast
    ring

theorem neighbourhood_value :
    ((neighbourhood m e).value : ℚ) / (neighbourhood m e).den = m * 2 ^ e := by
  have hvalue := quarters_div (e := e) (4 * m)
  push_cast at hvalue
  rw [mul_div_cancel_left₀ _ (by norm_num)] at hvalue
  rw [← hvalue]
  simp [neighbourhood]

theorem neighbourhood_high :
    ((neighbourhood m e).high : ℚ) / (neighbourhood m e).den = (m + 1 / 2) * 2 ^ e := by
  have hhigh := quarters_div (e := e) (4 * m + 2)
  have hsum : ((4 * m + 2 : ℕ) : ℚ) / 4 = m + 1 / 2 := by
    push_cast
    ring
  rw [hsum] at hhigh
  exact hhigh

theorem holds_iff (hm : 0 < m) {d : ℕ} {k : ℤ} :
    (neighbourhood m e).holds d k = true ↔ Near m e (d * 10 ^ k) := by
  have hq : (0 : ℚ) < (powerOfTen k).2 := by exact_mod_cast (powerOfTen_pos k).2
  have hden : (0 : ℚ) < (neighbourhood m e).den := by exact_mod_cast neighbourhood_den_pos
  have hvalue : (d : ℚ) * 10 ^ k = (d * (powerOfTen k).1) / (powerOfTen k).2 := by
    rw [← powerOfTen_div, mul_div_assoc]
  have hle : ∀ a : ℕ, a * (powerOfTen k).2 ≤ d * (powerOfTen k).1 * (neighbourhood m e).den ↔
      (a : ℚ) / (neighbourhood m e).den ≤ d * 10 ^ k := by
    intro a
    rw [hvalue, div_le_div_iff₀ hden hq]
    exact_mod_cast Iff.rfl
  have hge : ∀ a : ℕ, d * (powerOfTen k).1 * (neighbourhood m e).den ≤ a * (powerOfTen k).2 ↔
      (d : ℚ) * 10 ^ k ≤ a / (neighbourhood m e).den := by
    intro a
    rw [hvalue, div_le_div_iff₀ hq hden]
    exact_mod_cast Iff.rfl
  have hlow := hle (neighbourhood m e).low
  have hhigh := hge (neighbourhood m e).high
  have hlow' := not_congr (hge (neighbourhood m e).low)
  have hhigh' := not_congr (hle (neighbourhood m e).high)
  rw [not_le, not_le] at hlow' hhigh'
  rw [neighbourhood_low hm] at hlow hlow'
  rw [neighbourhood_high] at hhigh hhigh'
  -- the ends of the neighbourhood belong to it only if the significand is even
  have hclosed : (neighbourhood m e).closed = (m % 2 == 0) := rfl
  rw [Neighbourhood.holds, Near, hclosed]
  dsimp only
  split
  · next heven =>
    rw [beq_iff_eq] at heven
    rw [Bool.and_eq_true, decide_eq_true_eq, decide_eq_true_eq, hlow, hhigh, heven]
    simp
  · next hodd =>
    rw [beq_iff_eq] at hodd
    have hone : m % 2 = 1 := by omega
    rw [Bool.and_eq_true, decide_eq_true_eq, decide_eq_true_eq, hlow', hhigh', hone]
    exact ⟨fun h => ⟨⟨h.1.le, h.2.le⟩, fun _ => h⟩, fun h => h.2 rfl⟩

/-! ### One grid -/

theorem divNearest_eq_or (num den : ℕ) :
    divNearest num den = num / den ∨ divNearest num den = num / den + 1 := by
  unfold divNearest
  dsimp only
  split
  · exact .inl rfl
  · exact .inr rfl

/-- What is taken on a grid is a hit. -/
theorem holds_of_onGrid? {n : Neighbourhood} {d : ℕ} {k : ℤ} (h : n.onGrid? k = some d) :
    n.holds d k = true := by
  unfold Neighbourhood.onGrid? at h
  dsimp only at h
  split at h
  · next hboth hboth' =>
    obtain rfl := Option.some.inj h
    rcases divNearest_eq_or (n.value * (powerOfTen k).2) (n.den * (powerOfTen k).1) with hd | hd
    · rw [hd]
      exact hboth
    · rw [hd]
      exact hboth'
  · next hleft _ =>
    obtain rfl := Option.some.inj h
    exact hleft
  · next _ hright =>
    obtain rfl := Option.some.inj h
    exact hright
  · cases h

/-- A hit among the two neighbours is taken. -/
theorem onGrid?_isSome {n : Neighbourhood} {d : ℕ} {k : ℤ}
    (hd : d = n.value * (powerOfTen k).2 / (n.den * (powerOfTen k).1))
    (h : n.holds d k = true ∨ n.holds (d + 1) k = true) : (n.onGrid? k).isSome := by
  subst hd
  unfold Neighbourhood.onGrid?
  dsimp only
  split
  · rfl
  · rfl
  · rfl
  · next hleft hright =>
    rw [hleft, hright] at h
    simp at h

/-! ### The search -/

/-- If one of the grids has a hit, the search ends with one, on that grid or a coarser
one. -/
theorem search_holds {n : Neighbourhood} {steps j : ℕ} {k : ℤ} (hj : j < steps)
    (h : (n.onGrid? (k - j)).isSome) :
    n.holds (n.search steps k).digits (n.search steps k).exponent = true ∧
      k - j ≤ (n.search steps k).exponent := by
  induction steps generalizing j k with
  | zero => exact absurd hj (Nat.not_lt_zero j)
  | succ steps ih =>
    rw [Neighbourhood.search]
    cases hgrid : n.onGrid? k with
    | some d => exact ⟨holds_of_onGrid? hgrid, by show k - j ≤ k; omega⟩
    | none =>
      cases j with
      | zero =>
        rw [Nat.cast_zero, sub_zero, hgrid] at h
        cases h
      | succ j =>
        have hnext : k - ((j + 1 : ℕ) : ℤ) = k - 1 - j := by
          push_cast
          ring
        rw [hnext] at h ⊢
        exact ih (Nat.lt_of_succ_lt_succ hj) h

theorem zpow_neg_le {num den c : ℕ} (hden : 0 < den) (h : den ≤ num * 10 ^ c) :
    (10 : ℚ) ^ (-(c : ℤ)) ≤ num / den := by
  have hden' : (0 : ℚ) < den := by positivity
  rw [zpow_neg, zpow_natCast, inv_eq_one_div, div_le_div_iff₀ (by positivity) hden', one_mul]
  exact_mod_cast h

/-- The search starts no higher than at the first digit. -/
theorem leadingExponent_le {num den : ℕ} (hnum : 0 < num) (hden : 0 < den) :
    (10 : ℚ) ^ leadingExponent num den ≤ num / den := by
  unfold leadingExponent
  split
  · next hle => exact (toDigits_bounds (Nat.div_pos hle hden)).1.trans Nat.cast_div_le
  · next hlt =>
    have hpos : 0 < (Nat.toDigits 10 (den / num)).length := Nat.length_toDigits_pos
    dsimp only
    split
    · next hle =>
      have hc : 1 - ((Nat.toDigits 10 (den / num)).length : ℤ) =
          -(((Nat.toDigits 10 (den / num)).length - 1 : ℕ) : ℤ) := by omega
      rw [hc]
      exact zpow_neg_le hden hle
    · refine zpow_neg_le hden ?_
      have hdigits := lt_pow_length_toDigits (den / num)
      rw [mul_comm]
      exact ((Nat.div_lt_iff_lt_mul hnum).mp hdigits).le

theorem leadingExponent_nonneg {num den : ℕ} (h : den ≤ num) : 0 ≤ leadingExponent num den := by
  have hpos : 0 < (Nat.toDigits 10 (num / den)).length := Nat.length_toDigits_pos
  rw [leadingExponent, if_pos h]
  omega

/-! ### The last grid -/

/-- Where the spacing of a grid is less than the neighbourhood reaches, one of the two
neighbours lies near. -/
theorem near_floor_or_succ {m : ℕ} {e k : ℤ} (hm : Fits m e)
    (hgrid : (10 : ℚ) ^ 16 * 10 ^ k ≤ m * 2 ^ e) {d : ℕ}
    (hle : (d : ℚ) * 10 ^ k ≤ m * 2 ^ e) (hlt : m * 2 ^ e < ((d + 1 : ℕ) : ℚ) * 10 ^ k) :
    Near m e (d * 10 ^ k) ∨ Near m e ((d + 1 : ℕ) * 10 ^ k) := by
  have hbound : (m : ℚ) + 1 ≤ 2 ^ 53 := by exact_mod_cast hm.lt
  have hten : (0 : ℚ) < 10 ^ k := by positivity
  have htwo : (0 : ℚ) < 2 ^ e := by positivity
  -- seventeen digits are enough: the spacing is less than the neighbourhood is wide
  have hreach : (10 : ℚ) ^ k < 2 * (reach m e * 2 ^ e) := by
    have hdigits : (m : ℚ) < 10 ^ 16 * (2 * reach m e) := by
      rw [reach]
      split
      · next hpower =>
        rw [hpower.1]
        norm_num
      · linarith
    have hscaled := hgrid.trans_lt (mul_lt_mul_of_pos_right hdigits htwo)
    rw [mul_assoc, mul_assoc] at hscaled
    exact lt_of_mul_lt_mul_left hscaled (by positivity)
  have hhalf : (10 : ℚ) ^ k < 2 * (1 / 2 * 2 ^ e) := by
    have hmax := mul_le_mul_of_nonneg_right (reach_bounds m e).2 htwo.le
    linarith
  have hone : (0 : ℚ) < reach m e * 2 ^ e := by linarith
  push_cast at hlt
  rw [add_mul, one_mul] at hlt
  -- the nearer of the two is at most half the spacing away
  rcases le_or_gt ((m : ℚ) * 2 ^ e - d * 10 ^ k) (10 ^ k / 2) with hnear | hfar
  · left
    have hlow : ((m : ℚ) - reach m e) * 2 ^ e < d * 10 ^ k := by
      rw [sub_mul]
      linarith
    have hhigh : (d : ℚ) * 10 ^ k < (m + 1 / 2) * 2 ^ e := by
      rw [add_mul]
      linarith
    exact ⟨⟨hlow.le, hhigh.le⟩, fun _ => ⟨hlow, hhigh⟩⟩
  · right
    rw [Nat.cast_add, Nat.cast_one, add_mul, one_mul]
    have hlow : ((m : ℚ) - reach m e) * 2 ^ e < d * 10 ^ k + 10 ^ k := by
      rw [sub_mul]
      linarith
    have hhigh : (d : ℚ) * 10 ^ k + 10 ^ k < (m + 1 / 2) * 2 ^ e := by
      rw [add_mul]
      linarith
    exact ⟨⟨hlow.le, hhigh.le⟩, fun _ => ⟨hlow, hhigh⟩⟩

/-! ### The result -/

theorem floor_bounds {num den : ℕ} (hden : 0 < den) :
    ((num / den : ℕ) : ℚ) ≤ num / den ∧ (num : ℚ) / den < (num / den + 1 : ℕ) := by
  have hden' : (0 : ℚ) < den := by positivity
  refine ⟨Nat.cast_div_le, ?_⟩
  rw [div_lt_iff₀ hden', ← Nat.cast_mul, Nat.cast_lt, mul_comm]
  exact Nat.lt_mul_div_succ num hden

/-- On a grid the number lies between its two neighbours. -/
theorem grid_bounds {d : ℕ} {k : ℤ}
    (hd : d = (neighbourhood m e).value * (powerOfTen k).2 /
      ((neighbourhood m e).den * (powerOfTen k).1)) :
    (d : ℚ) * 10 ^ k ≤ m * 2 ^ e ∧ m * 2 ^ e < ((d + 1 : ℕ) : ℚ) * 10 ^ k := by
  have hten : (0 : ℚ) < 10 ^ k := by positivity
  have hpos : 0 < (neighbourhood m e).den * (powerOfTen k).1 :=
    Nat.mul_pos neighbourhood_den_pos (powerOfTen_pos k).1
  have hratio : (((neighbourhood m e).value * (powerOfTen k).2 : ℕ) : ℚ) /
      ((neighbourhood m e).den * (powerOfTen k).1 : ℕ) = m * 2 ^ e / 10 ^ k := by
    rw [← neighbourhood_value, ← powerOfTen_div, Nat.cast_mul, Nat.cast_mul, div_div_div_eq]
  have hfloor := @floor_bounds ((neighbourhood m e).value * (powerOfTen k).2) _ hpos
  rwa [hratio, ← hd, le_div_iff₀ hten, div_lt_iff₀ hten] at hfloor

theorem shortest_holds (hm : Fits m e) {j : ℕ} (hj : j < 17)
    (h : ((neighbourhood m e).onGrid?
      (leadingExponent (neighbourhood m e).value (neighbourhood m e).den - j)).isSome) :
    Near m e (shortest m e).toRat ∧
      leadingExponent (neighbourhood m e).value (neighbourhood m e).den - j ≤
        (shortest m e).exponent := by
  obtain ⟨hhit, hexponent⟩ := search_holds hj h
  exact ⟨(holds_iff hm.pos).mp hhit, hexponent⟩

/-- The last grid has a hit. -/
theorem onGrid?_last (hm : Fits m e) :
    ((neighbourhood m e).onGrid?
      (leadingExponent (neighbourhood m e).value (neighbourhood m e).den - (16 : ℕ))).isSome := by
  obtain ⟨k, hk⟩ : ∃ k, k = leadingExponent (neighbourhood m e).value (neighbourhood m e).den -
    (16 : ℕ) := ⟨_, rfl⟩
  have hvalue : 0 < (neighbourhood m e).value :=
    Nat.mul_pos (Nat.mul_pos (by decide) hm.pos) (powerOfTwo_pos (e - 2)).1
  have hgrid : (10 : ℚ) ^ 16 * 10 ^ k ≤ m * 2 ^ e := by
    have hlead := leadingExponent_le hvalue (neighbourhood_den_pos (m := m) (e := e))
    rwa [neighbourhood_value, ← sub_add_cancel (leadingExponent _ _) (16 : ℕ), ← hk,
      zpow_add₀ (by norm_num), mul_comm, zpow_natCast] at hlead
  obtain ⟨hle, hlt⟩ := grid_bounds (m := m) (e := e) (k := k) rfl
  rw [← hk]
  refine onGrid?_isSome rfl ?_
  rw [holds_iff hm.pos, holds_iff hm.pos]
  exact near_floor_or_succ hm hgrid hle hlt

/-- **The shortest decimal of a number lies near it.** -/
theorem shortest_near (hm : Fits m e) : Near m e (shortest m e).toRat :=
  (shortest_holds hm (by decide) (onGrid?_last hm)).1

/-! ### Whole numbers -/

theorem near_self (m : ℕ) (e : ℤ) : Near m e (m * 2 ^ e) := by
  have hreach := reach_bounds m e
  exact near_mul_iff.mpr ⟨⟨by linarith, by linarith⟩, fun _ => ⟨by linarith, by linarith⟩⟩

theorem isWhole_iff (negative : Bool) :
    (Binary64.finite negative m e).isWhole = true ↔ ∃ n : ℕ, (m : ℚ) * 2 ^ e = n := by
  have hq : (0 : ℚ) < (powerOfTwo e).2 := by exact_mod_cast (powerOfTwo_pos e).2
  have hratio : (m : ℚ) * 2 ^ e = (m * (powerOfTwo e).1 : ℕ) / (powerOfTwo e).2 := by
    rw [← powerOfTwo_div, Nat.cast_mul, mul_div_assoc]
  have hwhole : (Binary64.finite negative m e).isWhole = true ↔
      (powerOfTwo e).2 ∣ m * (powerOfTwo e).1 := by
    rw [Nat.dvd_iff_mod_eq_zero]
    exact beq_iff_eq
  rw [hwhole, hratio]
  constructor
  · rintro ⟨n, hn⟩
    exact ⟨n, by rw [hn, Nat.cast_mul, mul_div_cancel_left₀ _ hq.ne']⟩
  · rintro ⟨n, hn⟩
    rw [div_eq_iff hq.ne'] at hn
    exact ⟨n, by rw [mul_comm (powerOfTwo e).2]; exact_mod_cast hn⟩

/-- The digits of a whole number stop before the point. -/
theorem exponent_nonneg_of_whole (hm : Fits m e) {n : ℕ} (hn : (m : ℚ) * 2 ^ e = n) :
    0 ≤ (shortest m e).exponent := by
  obtain ⟨lead, hlead⟩ : ∃ lead, lead =
    leadingExponent (neighbourhood m e).value (neighbourhood m e).den := ⟨_, rfl⟩
  have hpos : 0 ≤ lead := by
    have hone : (1 : ℚ) ≤ n := by
      have hn' : (0 : ℚ) < n := by
        rw [← hn]
        have hmpos : (0 : ℚ) < m := by exact_mod_cast hm.pos
        positivity
      exact_mod_cast hn'
    have hden : (0 : ℚ) < (neighbourhood m e).den := by exact_mod_cast neighbourhood_den_pos
    rw [← hn, ← neighbourhood_value, one_le_div hden] at hone
    rw [hlead]
    exact leadingExponent_nonneg (by exact_mod_cast hone)
  rcases le_or_gt lead 16 with hle | hgt
  · -- the grid of the whole numbers is tried, and the number itself is a hit on it
    have hzero : lead - lead.toNat = 0 := by omega
    have hgrid : ((neighbourhood m e).onGrid? (lead - lead.toNat)).isSome := by
      obtain ⟨hdown, hup⟩ := grid_bounds (m := m) (e := e) (k := 0) rfl
      rw [zpow_zero, mul_one, hn, Nat.cast_le] at hdown
      rw [zpow_zero, mul_one, hn, Nat.cast_lt] at hup
      have hfloor := Nat.le_antisymm hdown (Nat.le_of_lt_succ hup)
      rw [hzero]
      refine onGrid?_isSome rfl (.inl ((holds_iff hm.pos).mpr ?_))
      rw [hfloor, zpow_zero, mul_one, ← hn]
      exact near_self m e
    rw [hlead] at hgrid
    have hexponent := (shortest_holds hm (by omega) hgrid).2
    omega
  · have hexponent := (shortest_holds hm (by decide) (onGrid?_last hm)).2
    rw [← hlead] at hexponent
    omega

/-- Near a number that is not whole no whole number lies. -/
theorem whole_of_near {n : ℕ} (h : Near m e n) : ∃ n : ℕ, (m : ℚ) * 2 ^ e = n := by
  have hreach := reach_bounds m e
  rcases le_or_gt 0 e with he | he
  · refine ⟨m * 2 ^ e.toNat, ?_⟩
    have hcast : e = (e.toNat : ℤ) := by omega
    rw [Nat.cast_mul, Nat.cast_pow, ← zpow_natCast, ← hcast]
    rfl
  · -- a whole number is a multiple of the last place
    have hn : (n : ℚ) = (n * 2 ^ (-e).toNat : ℕ) * 2 ^ e := by
      have hcast : (((-e).toNat : ℕ) : ℤ) = -e := by omega
      rw [Nat.cast_mul, Nat.cast_pow, ← zpow_natCast, hcast, mul_assoc, Nat.cast_ofNat,
        ← zpow_add₀ two_ne_zero, neg_add_cancel, zpow_zero, mul_one]
    rw [hn, near_mul_iff] at h
    have hle : m ≤ n * 2 ^ (-e).toNat := by
      have hlt : (m : ℚ) < (n * 2 ^ (-e).toNat + 1 : ℕ) := by
        rw [Nat.cast_add_one]
        linarith [h.1.1]
      exact Nat.le_of_lt_succ (by exact_mod_cast hlt)
    have hge : n * 2 ^ (-e).toNat ≤ m := by
      have hlt : ((n * 2 ^ (-e).toNat : ℕ) : ℚ) < (m + 1 : ℕ) := by
        rw [Nat.cast_add_one]
        linarith [h.1.2]
      exact Nat.le_of_lt_succ (by exact_mod_cast hlt)
    exact ⟨n, by rw [hn, ← Nat.le_antisymm hle hge]⟩

end WorkspaceAudit.Decimal

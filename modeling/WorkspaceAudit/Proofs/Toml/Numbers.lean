/-
WorkspaceAudit/Proofs/Toml/Numbers.lean

The text of a number is read back.

An integer is a sign and digits.  A date or time is tried first, but after digits it
needs a hyphen or a colon (`misses_datetime`), and then a float, which needs a point or
an exponent (`misses_float`).

A float is written as the shortest digits near it, with a point and without an
exponent.  Wherever the point stands, before the digits, among them or after them, the
digits on both sides of it are read as the same number (`writes_positional`), and that
rounds to the float.
-/
import WorkspaceAudit.Proofs.Decimal.Shortest
import WorkspaceAudit.Proofs.Toml.Moments
import WorkspaceAudit.Toml.Document
import WorkspaceAudit.Toml.Printer

namespace WorkspaceAudit.Toml

open Reader

variable {ds r s : List Char}

/-! ### Before the point -/

/-- Digits of which the first is a zero only if it is the last. -/
structure Integral (ds : List Char) : Prop where
  digits : ∀ d ∈ ds, d.isDigit
  ne_nil : ds ≠ []
  head : ds = ['0'] ∨ ds.head? ≠ some '0'

theorem integral_toDigits (n : Nat) : Integral (Nat.toDigits 10 n) where
  digits _ hd := isDigit_of_mem_toDigits hd
  ne_nil := Nat.toDigits_ne_nil
  head := by
    rcases Nat.eq_zero_or_pos n with rfl | hn
    · exact .inl rfl
    · exact .inr (head?_toDigits hn)

theorem Integral.opens (h : Integral ds) : ∃ c cs, ds = c :: cs ∧ c.isDigit = true := by
  cases ds with
  | nil => exact absurd rfl h.ne_nil
  | cons c cs => exact ⟨c, cs, rfl, h.digits c List.mem_cons_self⟩

theorem ne_of_isDigit {c d : Char} (hc : c.isDigit = true) (hd : d.isDigit = false) : c ≠ d := by
  rintro rfl
  rw [hc] at hd
  cases hd

/-- The sign of a number is read, if it has one. -/
theorem reads_minus (h : Integral ds) (negative : Bool) (s : List Char) :
    Reads minus ((if negative then ['-'] else []) ++ (ds ++ s)) negative (ds ++ s) := by
  cases negative with
  | true => rfl
  | false =>
    obtain ⟨c, cs, rfl, hc⟩ := h.opens
    show minus (c :: (cs ++ s)) = _
    rw [minus]
    · rfl
    · rintro r heq
      exact ne_of_isDigit hc rfl (List.cons.inj heq).1
    · rintro r heq
      exact ne_of_isDigit hc rfl (List.cons.inj heq).1

theorem reads_decimalInteger (h : Integral ds) (hs : Stops (fun c => c.isDigit || c == '_') s)
    (negative : Bool) :
    Reads decimalInteger ((if negative then ['-'] else []) ++ (ds ++ s)) (negative, ds) s := by
  refine Reads.label _ ((reads_minus h negative s).bind ?_)
  refine Reads.bind (a := ds) ?_ (Reads.pure _ s)
  rcases h.head with rfl | hhead
  · rfl
  · have hread := reads_digits h.ne_nil h.digits hs
    unfold Reads
    dsimp only
    split
    · next r heq =>
      obtain ⟨c, cs, rfl, -⟩ := h.opens
      rw [(List.cons.inj heq).1] at hhead
      exact absurd rfl hhead
    · exact hread

/-! ### Numbers are no dates -/

/-- After digits a date or time needs a hyphen or a colon. -/
theorem misses_datetime (h : ∀ ds t, s = ds ++ t → ds ≠ [] → (∀ d ∈ ds, d.isDigit) →
    t.head? ≠ some '-' ∧ t.head? ≠ some ':') : Misses datetime s := by
  have hne : ∀ {ds : List Char} {n : Nat}, ds.length = n + 1 → ds ≠ [] := by
    rintro _ n hlength rfl
    cases hlength
  have hdate : Misses fullDate s :=
    misses_number_sign fun ds t hs hlength hds => (h ds t hs (hne hlength) hds).1
  have htime : Misses partialTime s :=
    misses_number_sign fun ds t hs hlength hds => (h ds t hs (hne hlength) hds).2
  exact (hdate.bind.label _).orElse_misses (htime.bind.label _)

/-- Digits that a point or the end of the value follows are no date or time. -/
theorem misses_datetime_digits (hds : ∀ d ∈ ds, d.isDigit)
    (hs : Stops (fun c => c.isDigit || c == '-' || c == ':') s) : Misses datetime (ds ++ s) := by
  have hnone : ∀ c ∈ s.head?, (c.isDigit || c == '-' || c == ':') = false := hs
  have hend : s.head? ≠ some '-' ∧ s.head? ≠ some ':' :=
    ⟨fun hc => absurd (hnone _ hc) (by decide), fun hc => absurd (hnone _ hc) (by decide)⟩
  apply misses_datetime
  rintro es t heq - hes
  rcases List.append_eq_append_iff.mp heq with ⟨a, rfl, rfl⟩ | ⟨a, rfl, rfl⟩
  · cases a with
    | nil => exact hend
    | cons c a =>
      -- what follows all the digits is none
      have hno := hnone c rfl
      rw [hes c (by simp)] at hno
      cases hno
  · cases a with
    | nil => exact hend
    | cons c a =>
      have hdigit := hds c (by simp)
      rw [List.cons_append, List.head?_cons]
      exact ⟨fun hc => ne_of_isDigit hdigit rfl (Option.some.inj hc),
        fun hc => ne_of_isDigit hdigit rfl (Option.some.inj hc)⟩

theorem misses_datetime_minus (s : List Char) : Misses datetime ('-' :: s) := by
  apply misses_datetime
  intro ds t heq hne hds
  obtain ⟨d, ds, rfl⟩ := List.exists_cons_of_ne_nil hne
  exact absurd (List.cons.inj heq).1.symm (ne_of_isDigit (hds d List.mem_cons_self) rfl)

theorem misses_datetime_number (h : Integral ds)
    (hs : Stops (fun c => c.isDigit || c == '-' || c == ':') s) (negative : Bool) :
    Misses datetime ((if negative then ['-'] else []) ++ (ds ++ s)) := by
  cases negative with
  | true => exact misses_datetime_minus _
  | false => exact @misses_datetime_digits ds s h.digits hs

/-! ### Which value it is -/

/-- After a digit or a minus a date, a time or a number is read. -/
theorem valueOf_number (container : Reader Value) {c : Char} (hc : c.isDigit = true ∨ c = '-')
    (s : List Char) :
    valueOf container (c :: s) =
      (((do return .datetime (← datetime) : Reader Value).orElse float).orElse integer)
        (c :: s) := by
  have hne : ∀ d : Char, d.isDigit = false → d ≠ '-' → c ≠ d := by
    rintro d hd hminus rfl
    rcases hc with hc | hc
    · rw [hd] at hc
      cases hc
    · exact hminus hc
  have hstart : (c = '+' ∨ c = '-') ∨ c.isDigit = true := by tauto
  rw [valueOf, if_neg, if_neg, if_pos]
  · simpa using hstart
  · simpa using ⟨hne '[' rfl (by decide), hne '\x7b' rfl (by decide)⟩
  · simpa using ⟨hne '"' rfl (by decide), hne '\x27' rfl (by decide)⟩

/-- So it is with digits that may have a sign. -/
theorem valueOf_digits (container : Reader Value) (h : Integral ds) (negative : Bool)
    (s : List Char) :
    valueOf container ((if negative then ['-'] else []) ++ (ds ++ s)) =
      (((do return .datetime (← datetime) : Reader Value).orElse float).orElse integer)
        ((if negative then ['-'] else []) ++ (ds ++ s)) := by
  cases negative with
  | true => exact valueOf_number container (.inr rfl) (ds ++ s)
  | false =>
    obtain ⟨c, cs, rfl, hc⟩ := h.opens
    exact valueOf_number container (.inl hc) (cs ++ s)

theorem reads_word {p : Reader Value} {v : Value} (h : Reads p s v r) : Reads (word p) s v r :=
  (h.expecting _).label _

/-! ### Integers -/

theorem misses_signs {c : Char} {cs : List Char} (h : s.head? ≠ some c) :
    Misses (signs (c :: cs)) s := by
  have hnone : dropStart? (c :: cs) s = none := by
    cases s with
    | nil => rfl
    | cons d s =>
      rw [List.head?_cons, ne_eq, Option.some.injEq] at h
      rw [dropStart?, if_neg (Ne.symm h)]
  exact ⟨_, by rw [signs, hnone]⟩

/-- Where a value ends, no point or exponent follows. -/
theorem misses_scaling (hr : EndsValue r) : Misses scaling r := by
  have hpoint : r.head? ≠ some '.' := by
    have hstop : Stops (· == '.') r := hr.stops rfl
    exact fun hc => absurd (hstop _ hc) (by decide)
  have hmark : Misses exponent r := by
    refine Misses.bind (misses_one ?_)
    exact hr.stops rfl
  exact hmark.bind.orElse_misses (misses_sign hpoint).bind.bind

/-- Digits are not the name of a number. -/
theorem misses_namedFloat (h : Integral ds) (negative : Bool) (s : List Char) :
    Misses namedFloat ((if negative then ['-'] else []) ++ (ds ++ s)) := by
  obtain ⟨c, cs, rfl, hc⟩ := h.opens
  have hname : ∀ (d : Char) (ds : List Char), d.isDigit = false →
      Misses (signs (d :: ds)) (c :: cs ++ s) := by
    intro d ds hd
    refine misses_signs fun heq => ?_
    exact ne_of_isDigit hc hd (Option.some.inj heq)
  exact (reads_minus h negative s).misses_bind
    ((hname 'i' _ rfl).bind.orElse_misses (hname 'n' _ rfl).bind)

/-- Digits that the end of the value follows are no float. -/
theorem misses_float (h : Integral ds) (hr : EndsValue r) (negative : Bool) :
    Misses float ((if negative then ['-'] else []) ++ (ds ++ r)) := by
  have hpair := (reads_decimalInteger h (hr.stops rfl) negative).misses_bind
    (f := fun i => do return (i, ← scaling)) (misses_scaling hr).bind
  obtain ⟨e, he⟩ := hpair
  have hfinite : Misses finiteFloat ((if negative then ['-'] else []) ++ (ds ++ r)) :=
    ⟨e, by rw [finiteFloat, he]⟩
  exact Misses.label _ (hfinite.orElse_misses (misses_namedFloat h negative r))

/-- After a zero at the start the value ends. -/
theorem head?_of_zero (h : Integral ds) {negative : Bool} {c : Char} {t : List Char}
    (heq : (if negative then ['-'] else []) ++ (ds ++ r) = '0' :: c :: t) : r.head? = some c := by
  cases negative with
  | true => exact absurd (List.cons.inj heq).1 (by decide)
  | false =>
    have heq : ds ++ r = '0' :: c :: t := heq
    rcases h.head with rfl | hhead
    · have hr : r = c :: t := (List.cons.inj heq).2
      rw [hr]
      rfl
    · obtain ⟨d, ds, rfl, -⟩ := h.opens
      rw [(List.cons.inj heq).1] at hhead
      exact absurd rfl hhead

theorem reads_integer (h : Integral ds) (hr : EndsValue r) {negative : Bool} {v : Value}
    (hv : fitted negative (ofDigits 10 ds) = .ok v) :
    Reads integer ((if negative then ['-'] else []) ++ (ds ++ r)) v r := by
  have hbase : Stops (fun c => c == 'x' || c == 'o' || c == 'b') r := hr.stops rfl
  unfold Reads integer
  dsimp only
  -- a zero in front is no start of another base, since the value ends after it
  split
  · next heq => exact absurd (hbase _ (head?_of_zero h heq)) (by decide)
  · next heq => exact absurd (hbase _ (head?_of_zero h heq)) (by decide)
  · next heq => exact absurd (hbase _ (head?_of_zero h heq)) (by decide)
  · rw [reads_decimalInteger h (hr.stops rfl) negative]
    dsimp only
    rw [hv]

theorem toList_toString (n : Int) :
    (toString n).toList = (if decide (n < 0) then ['-'] else []) ++ Nat.toDigits 10 n.natAbs := by
  cases n with
  | ofNat n =>
    show (Nat.repr n).toList = _
    rw [Nat.toList_repr]
    rfl
  | negSucc n =>
    show ("-" ++ Nat.repr (n + 1)).toList = _
    rw [String.toList_append, Nat.toList_repr, decide_eq_true (Int.negSucc_lt_zero n)]
    rfl

/-- **An integer of 64 bits is read back.** -/
theorem reads_value_integer (container : Reader Value) {n : Int} (hlow : -2 ^ 63 ≤ n)
    (hhigh : n < 2 ^ 63) (hr : EndsValue r) :
    Reads (valueOf container) ((toString n).toList ++ r) (.integer n) r := by
  have hdigits := integral_toDigits n.natAbs
  have hend : integerEnd = 2 ^ 63 := rfl
  have hfit : fitted (decide (n < 0)) (ofDigits 10 (Nat.toDigits 10 n.natAbs)) =
      .ok (.integer n) := by
    rw [ofDigits_toDigits, fitted, hend]
    by_cases hneg : n < 0
    · have hn : -(n.natAbs : Int) = n := by omega
      rw [if_pos (decide_eq_true hneg), if_pos (by omega), hn]
    · have hn : (n.natAbs : Int) = n := by omega
      rw [if_neg (mt of_decide_eq_true hneg), if_pos (by omega), hn]
  rw [toList_toString, List.append_assoc, Reads, valueOf_digits container hdigits]
  refine ((Misses.bind ?_).orElse_misses (misses_float hdigits hr _)).orElse
    (reads_integer hdigits hr hfit)
  exact misses_datetime_number hdigits (hr.stops rfl) _

/-! ### Dates and times -/

theorem Datetime.opens (d : Datetime) : ∃ c cs, d.text = c :: cs ∧ c.isDigit = true := by
  have hpadded : ∀ (width n : Nat) (s : List Char),
      ∃ c cs, padded width n ++ s = c :: cs ∧ c.isDigit = true := by
    intro width n s
    cases hcs : padded width n with
    | nil => exact absurd hcs (by simp [padded, Nat.toDigits_ne_nil])
    | cons c cs =>
      have hc : c ∈ padded width n := by simp [hcs]
      exact ⟨c, _, rfl, isDigit_of_mem_padded hc⟩
  cases d with
  | date d =>
    simp only [Datetime.text, Date.text, List.append_assoc]
    exact hpadded _ _ _
  | time t =>
    simp only [Datetime.text, Time.text, List.append_assoc]
    exact hpadded _ _ _
  | dateTime d t =>
    simp only [Datetime.text, Date.text, List.append_assoc]
    exact hpadded _ _ _
  | instant d t o =>
    simp only [Datetime.text, Date.text, List.append_assoc]
    exact hpadded _ _ _

theorem reads_value_datetime (container : Reader Value) {d : Datetime} (hd : d.Valid)
    (hr : EndsValue r) : Reads (valueOf container) (d.text ++ r) (.datetime d) r := by
  obtain ⟨c, cs, hcs, hc⟩ := d.opens
  have hread := reads_datetime hd hr
  rw [hcs] at hread ⊢
  rw [Reads, List.cons_append, valueOf_number container (.inl hc)]
  have hvalue : Reads (do return .datetime (← datetime) : Reader Value) (c :: (cs ++ r))
      (.datetime d) r := hread.bind (Reads.pure _ r)
  exact (hvalue.orElse _).orElse _

/-! ### Where the point stands -/

/-- Digits without a zero in front, of which so many stand before the point, write this
number. -/
structure Significant (ds : List Char) (point : ℤ) (y : ℚ) : Prop where
  digits : ∀ d ∈ ds, d.isDigit
  ne_nil : ds ≠ []
  head : ds.head? ≠ some '0'
  value : (ofDigits 10 ds : ℚ) * 10 ^ (point - ds.length) = y

theorem significant_pointed {d : Decimal} (hd : 0 < d.digits) :
    Significant d.pointed.1 d.pointed.2 d.toRat := by
  obtain ⟨ds, hds⟩ : ∃ ds, ds = Nat.toDigits 10 d.digits := ⟨_, rfl⟩
  obtain ⟨sig, hsig⟩ : ∃ sig, sig = (ds.reverse.dropWhile (· == '0')).reverse := ⟨_, rfl⟩
  have hpointed : d.pointed = (sig, (ds.length : ℤ) + d.exponent) := by
    rw [hsig, hds]
    rfl
  have hzeros := trimmed_append ds
  rw [← hsig] at hzeros
  have hdigits : ∀ c ∈ sig, c.isDigit := by
    intro c hc
    rw [hsig] at hc
    have hmem := mem_of_mem_trimmed hc
    rw [hds] at hmem
    exact isDigit_of_mem_toDigits hmem
  -- the zeros that were left out are a power of ten, which the place of the point makes up
  have hvalue : d.digits = 10 ^ (ds.length - sig.length) * ofDigits 10 sig := by
    rw [← ofDigits_append_zeros hdigits, hzeros, hds, ofDigits_toDigits]
  have hne : sig ≠ [] := by
    rintro rfl
    have hzero : ofDigits 10 [] = 0 := rfl
    rw [hzero] at hvalue
    omega
  have hle : sig.length ≤ ds.length := by
    have hlength := congrArg List.length hzeros
    rw [List.length_append] at hlength
    omega
  rw [hpointed]
  refine ⟨hdigits, hne, ?_, ?_⟩
  · rw [← List.head?_append_of_ne_nil _ hne, hzeros, hds]
    exact head?_toDigits hd
  · have hplaces : (ds.length : ℤ) + d.exponent - sig.length =
        ((ds.length - sig.length : ℕ) : ℤ) + d.exponent := by omega
    rw [Decimal.toRat, hvalue, hplaces, zpow_add₀ (by norm_num), zpow_natCast]
    push_cast
    ring

/-- Digits on both sides of a point write this number. -/
structure Writes (y : ℚ) (ints places : List Char) : Prop where
  integral : Integral ints
  ne_nil : places ≠ []
  digits : ∀ d ∈ places, d.isDigit
  value : (ofDigits 10 (ints ++ places) : ℚ) * 10 ^ (0 - (places.length : ℤ)) = y

section Point

variable {point : ℤ} {y : ℚ}

/-- The point stands before all digits. -/
theorem Significant.before (h : Significant ds point y) (hpoint : point ≤ 0) :
    Writes y ['0'] (List.replicate (-point).toNat '0' ++ ds) where
  integral := ⟨by simp, by simp, .inl rfl⟩
  ne_nil := by simp [h.ne_nil]
  digits := by
    intro d hd
    rcases List.mem_append.mp hd with hd | hd
    · exact isDigit_of_mem_zeros hd
    · exact h.digits d hd
  value := by
    have hzeros : ['0'] ++ (List.replicate (-point).toNat '0' ++ ds) =
        List.replicate ((-point).toNat + 1) '0' ++ ds := by
      simp [List.replicate_succ]
    have hplaces : 0 - ((List.replicate (-point).toNat '0' ++ ds).length : ℤ) =
        point - ds.length := by
      rw [List.length_append, List.length_replicate]
      omega
    rw [hzeros, ofDigits_replicate_append h.digits, hplaces, h.value]

/-- The point stands among the digits. -/
theorem Significant.among (h : Significant ds point y) (hpos : 0 < point)
    (hlt : point.toNat < ds.length) : Writes y (ds.take point.toNat) (ds.drop point.toNat) where
  integral := by
    refine ⟨fun d hd => h.digits d (List.mem_of_mem_take hd), ?_, .inr ?_⟩
    · rw [ne_eq, List.take_eq_nil_iff]
      rintro (hzero | hnil)
      · omega
      · exact h.ne_nil hnil
    · rw [List.head?_take, if_neg (by omega)]
      exact h.head
  ne_nil := by
    rw [ne_eq, List.drop_eq_nil_iff]
    omega
  digits := fun d hd => h.digits d (List.mem_of_mem_drop hd)
  value := by
    have hplaces : 0 - ((ds.drop point.toNat).length : ℤ) = point - ds.length := by
      rw [List.length_drop]
      omega
    rw [List.take_append_drop, hplaces, h.value]

/-- The point stands after all digits. -/
theorem Significant.after (h : Significant ds point y) (hle : ds.length ≤ point.toNat) :
    Writes y (ds ++ List.replicate (point.toNat - ds.length) '0') ['0'] where
  integral := by
    refine ⟨?_, by simp [h.ne_nil], .inr ?_⟩
    · intro d hd
      rcases List.mem_append.mp hd with hd | hd
      · exact h.digits d hd
      · exact isDigit_of_mem_zeros hd
    · rw [List.head?_append_of_ne_nil _ h.ne_nil]
      exact h.head
  ne_nil := by simp
  digits := by simp
  value := by
    have hzeros : ds ++ List.replicate (point.toNat - ds.length) '0' ++ ['0'] =
        ds ++ List.replicate (point.toNat - ds.length + 1) '0' := by
      rw [List.append_assoc, List.replicate_succ']
    have hplaces : point - ds.length =
        ((point.toNat - ds.length + 1 : ℕ) : ℤ) + (0 - (['0'].length : ℤ)) := by
      have hpos := List.length_pos_iff.mpr h.ne_nil
      rw [List.length_singleton]
      omega
    rw [hzeros, ofDigits_append_zeros h.digits, ← h.value, hplaces, zpow_add₀ (by norm_num),
      zpow_natCast]
    push_cast
    ring

end Point

/-- A decimal whose exponent is not negative has no digits after its point. -/
theorem length_pointed_le {d : Decimal} (h : 0 ≤ d.exponent) :
    (d.pointed.1.length : ℤ) ≤ d.pointed.2 := by
  have hle := congrArg List.length (trimmed_append (Nat.toDigits 10 d.digits))
  rw [List.length_append] at hle
  show (((Nat.toDigits 10 d.digits).reverse.dropWhile (· == '0')).reverse.length : ℤ) ≤
    (Nat.toDigits 10 d.digits).length + d.exponent
  omega

/-- Wherever the point of a decimal stands, it is written as the decimal. -/
theorem writes_positional {d : Decimal} (hd : 0 < d.digits) (whole : Bool)
    (hwhole : whole = true → 0 ≤ d.exponent)
    (hpart : whole = false → ∀ n : ℕ, d.toRat ≠ n) :
    ∃ ints places, (if whole then d.positional ++ ".0".toList else d.positional) =
      ints ++ '.' :: places ∧ Writes d.toRat ints places := by
  have h := significant_pointed hd
  have hpos := List.length_pos_iff.mpr h.ne_nil
  rw [Decimal.positional]
  dsimp only
  -- a point and a zero are added to a whole number, the one form that has no point itself
  cases whole with
  | true =>
    have hle := length_pointed_le (hwhole rfl)
    refine ⟨_, ['0'], ?_, h.after (by omega)⟩
    rw [if_pos rfl, if_neg (by omega), if_pos (by omega)]
    rfl
  | false =>
    rw [if_neg Bool.false_ne_true]
    by_cases hbefore : d.pointed.2 ≤ 0
    · exact ⟨['0'], _, if_pos hbefore, h.before hbefore⟩
    rw [if_neg hbefore]
    by_cases hafter : d.pointed.1.length ≤ d.pointed.2.toNat
    · -- no point is needed for a whole number alone
      have hplaces : d.pointed.2 - d.pointed.1.length =
          ((d.pointed.2.toNat - d.pointed.1.length : ℕ) : ℤ) := by omega
      have hnat := h.value
      rw [hplaces, zpow_natCast] at hnat
      exact absurd hnat.symm (by exact_mod_cast hpart rfl _)
    · exact ⟨_, _, if_neg hafter, h.among (by omega) (by omega)⟩

/-! ### Floats -/

theorem reads_finiteFloat {ints places : List Char} (hints : Integral ints)
    (hne : places ≠ []) (hplaces : ∀ d ∈ places, d.isDigit) (hr : EndsValue r) {negative : Bool}
    {x : Binary64}
    (hx : Binary64.ofDecimal negative (ofDigits 10 (ints ++ places)) (0 - places.length) = x)
    (hfinite : x ≠ .infinite false) :
    Reads finiteFloat ((if negative then ['-'] else []) ++ (ints ++ '.' :: (places ++ r)))
      (.float x) r := by
  have hpoint : Misses exponent ('.' :: (places ++ r)) := (misses_one (stops_cons rfl _)).bind
  have hend : Misses exponent r := by
    refine Misses.bind (misses_one ?_)
    exact hr.stops rfl
  have hfraction : Reads fraction ('.' :: (places ++ r)) places r :=
    (reads_sign '.' _).bind (((reads_digits hne hplaces (hr.stops rfl)).firm).expecting _)
  have hscaling : Reads scaling ('.' :: (places ++ r)) (places, 0) r :=
    hpoint.bind.orElse (hfraction.bind (hend.optional.bind (Reads.pure _ r)))
  have hpair := (reads_decimalInteger hints (stops_cons rfl _) negative).bind
    (f := fun i => do return (i, ← scaling)) (hscaling.bind (Reads.pure _ r))
  unfold Reads finiteFloat
  rw [hpair]
  dsimp only
  rw [hx, if_neg hfinite]

/-- A float is written with a point, as a number that rounds to it. -/
theorem writes_float {m : ℕ} {e : ℤ} (hm : Binary64.Fits m e) (negative : Bool) :
    ∃ ints places, floatText (.finite negative m e) =
      (if negative then ['-'] else []) ++ (ints ++ '.' :: places) ∧
        Writes (Decimal.shortest m e).toRat ints places := by
  have hnear := Decimal.shortest_near hm
  have hdigits : 0 < (Decimal.shortest m e).digits := by
    rcases Nat.eq_zero_or_pos (Decimal.shortest m e).digits with h | h
    · have hpos := hnear.pos hm
      rw [Decimal.toRat, h, Nat.cast_zero, zero_mul] at hpos
      exact absurd hpos (lt_irrefl 0)
    · exact h
  have hwhole := Decimal.isWhole_iff (m := m) (e := e) negative
  obtain ⟨ints, places, htext, hwrites⟩ :=
    writes_positional hdigits (Binary64.finite negative m e).isWhole
      (fun h => by
        obtain ⟨n, hn⟩ := hwhole.mp h
        exact Decimal.exponent_nonneg_of_whole hm hn)
      (fun h n hn => by
        rw [hn] at hnear
        rw [hwhole.mpr (Decimal.whole_of_near hnear)] at h
        cases h)
  refine ⟨ints, places, ?_, hwrites⟩
  rw [floatText, if_neg (Nat.ne_of_gt hm.pos), ← htext]

/-- **A float is read back.** -/
theorem reads_value_float (container : Reader Value) {x : Binary64} (hx : x.Canonical)
    (hr : EndsValue r) : Reads (valueOf container) (floatText x ++ r) (.float x) r := by
  -- what has a point is read as a float; the cases only have to say where it stands
  have hpoint : ∀ {ints places : List Char} (negative : Bool), Integral ints → places ≠ [] →
      (∀ d ∈ places, d.isDigit) → ∀ {x : Binary64},
      Binary64.ofDecimal negative (ofDigits 10 (ints ++ places)) (0 - places.length) = x →
      x ≠ .infinite false →
      Reads (valueOf container)
        ((if negative then ['-'] else []) ++ (ints ++ '.' :: places) ++ r) (.float x) r := by
    intro ints places negative hints hne hplaces x hx hfinite
    have hread := reads_finiteFloat hints hne hplaces hr hx hfinite
    rw [List.append_assoc, List.append_assoc, List.cons_append, Reads,
      valueOf_digits container hints]
    refine (Misses.orElse (Misses.bind ?_) ((hread.orElse _).label _)).orElse _
    exact misses_datetime_number hints (stops_cons rfl _) negative
  have hnot : ∀ negative m e, Binary64.finite negative m e ≠ .infinite false := by simp
  cases hx with
  | nan =>
    have hname : Reads (do signs "nan".toList; return .float .nan : Reader Value)
        ("nan".toList ++ r) (.float .nan) r := (reads_signs _ r).bind (Reads.pure _ r)
    exact reads_word hname
  | infinite negative =>
    cases negative with
    | false =>
      have hname : Reads (do signs "inf".toList; return .float (.infinite false) : Reader Value)
          ("inf".toList ++ r) (.float (.infinite false)) r :=
        (reads_signs _ r).bind (Reads.pure _ r)
      exact reads_word hname
    | true =>
      have hfinite : Misses finiteFloat ('-' :: ("inf".toList ++ r)) := ⟨_, rfl⟩
      have hname : Reads namedFloat ('-' :: ("inf".toList ++ r)) (.float (.infinite true)) r := by
        refine Reads.bind (a := true) rfl (Reads.orElse ?_ _)
        exact (reads_signs _ r).bind (Reads.pure _ r)
      have hnumber := valueOf_number container (.inr rfl) ("inf".toList ++ r)
      show valueOf container ('-' :: ("inf".toList ++ r)) = _
      rw [hnumber]
      exact ((misses_datetime_minus _).bind.orElse ((hfinite.orElse hname).label _)).orElse _
  | zero negative =>
    have hzero : Integral ['0'] := ⟨by simp, by simp, .inl rfl⟩
    exact @hpoint ['0'] ['0'] negative hzero (by simp) (by simp) _ rfl (hnot _ _ _)
  | @finite negative m e hm =>
    obtain ⟨ints, places, htext, hwrites⟩ := writes_float hm negative
    have hnear := Decimal.shortest_near hm
    rw [← hwrites.value] at hnear
    rw [htext]
    exact hpoint negative hwrites.integral hwrites.ne_nil hwrites.digits
      (Binary64.ofDecimal_of_near hm hnear negative) (hnot _ _ _)

end WorkspaceAudit.Toml

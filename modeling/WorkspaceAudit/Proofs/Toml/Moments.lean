/-
WorkspaceAudit/Proofs/Toml/Moments.lean

The text of a date or time is read back.

A date and a time both start with digits; the sign after these tells them apart
(`misses_number_sign`).  Zeros at the end of a fraction are left out and put back by
the reader.
-/
import Mathlib.Data.List.Basic
import WorkspaceAudit.Proofs.Toml.Digits
import WorkspaceAudit.Toml.Moment

namespace WorkspaceAudit.Toml

open Reader

variable {r s : List Char}

/-! ### Dates and times that there are -/

/-- A day of the calendar, in a year of four digits. -/
structure Date.Valid (d : Date) : Prop where
  year : d.year ≤ 9999
  month_pos : 1 ≤ d.month
  month : d.month ≤ 12
  day_pos : 1 ≤ d.day
  day : d.day ≤ daysIn d.year d.month

/-- A time of the day, a leap second too. -/
structure Time.Valid (t : Time) : Prop where
  hour : t.hour ≤ 23
  minute : t.minute ≤ 59
  second : t.second ≤ 60
  nanosecond : t.nanosecond < 10 ^ 9

/-- Less than a day away. -/
def Offset.Valid : Offset → Prop
  | zulu => True
  | minutes east => east.natAbs < 24 * 60

/-- Each of its parts is one that there is. -/
def Datetime.Valid : Datetime → Prop
  | date d => d.Valid
  | time t => t.Valid
  | dateTime d t => d.Valid ∧ t.Valid
  | instant d t o => d.Valid ∧ t.Valid ∧ o.Valid

/-! ### Numbers of a fixed width -/

theorem reads_number {width low high n : Nat} (hwidth : 0 < width) (hn : n < 10 ^ width)
    (hlow : low ≤ n) (hhigh : n ≤ high) (s : List Char) :
    Reads (number width low high) (padded width n ++ s) n s := by
  have hlength : (padded width n).length = width := length_padded hwidth hn
  have hdigits : (padded width n).all Char.isDigit = true :=
    List.all_eq_true.mpr fun _ hd => isDigit_of_mem_padded hd
  rw [Reads, number]
  dsimp only
  rw [List.take_left' hlength, List.drop_left' hlength, hdigits, ofDigits_padded, hlength,
    if_pos (by simp), if_pos (by simp [hlow, hhigh])]

/-- A number is missed, or it is the first so many characters, all of them digits. -/
theorem number_cases (width low high : Nat) (s : List Char) :
    Misses (number width low high) s ∨
      ∃ n ds t, s = ds ++ t ∧ ds.length = width ∧ (∀ d ∈ ds, d.isDigit) ∧
        Reads (number width low high) s n t := by
  by_cases hdigits : (decide ((s.take width).length = width) && (s.take width).all Char.isDigit) =
      true
  · by_cases hrange : (decide (low ≤ ofDigits 10 (s.take width)) &&
        decide (ofDigits 10 (s.take width) ≤ high)) = true
    · refine .inr ⟨ofDigits 10 (s.take width), s.take width, s.drop width,
        (List.take_append_drop width s).symm, ?_, ?_, ?_⟩
      · rw [Bool.and_eq_true, decide_eq_true_eq] at hdigits
        exact hdigits.1
      · rw [Bool.and_eq_true, List.all_eq_true] at hdigits
        exact hdigits.2
      · rw [Reads, number]
        dsimp only
        rw [if_pos hdigits, if_pos hrange]
    · have hrefuse : number width low high s = refuse .outOfRange s := by
        rw [number]
        dsimp only
        rw [if_pos hdigits, if_neg hrange]
      exact .inl ⟨_, hrefuse⟩
  · refine .inl ⟨.at s, ?_⟩
    rw [number]
    dsimp only
    rw [if_neg hdigits]

theorem misses_number {width low high : Nat} (hwidth : 0 < width) (hs : Stops Char.isDigit s) :
    Misses (number width low high) s := by
  rcases number_cases width low high s with h | ⟨n, ds, t, rfl, hlength, hds, -⟩
  · exact h
  · cases ds with
    | nil => exact absurd hlength (Nat.ne_of_lt hwidth)
    | cons d ds =>
      have hd := hs d rfl
      rw [hds d List.mem_cons_self] at hd
      cases hd

/-- Where a sign is asked for after a number and another character stands there, or
none, the two are missed. -/
theorem misses_number_sign {α : Type} {width low high : Nat} {c : Char} {f : Nat → Reader α}
    (h : ∀ ds t, s = ds ++ t → ds.length = width → (∀ d ∈ ds, d.isDigit) → t.head? ≠ some c) :
    Misses (number width low high >>= fun n => sign c >>= fun _ => f n) s := by
  rcases number_cases width low high s with hmiss | ⟨n, ds, t, hs, hlength, hds, hread⟩
  · exact hmiss.bind
  · exact hread.misses_bind (misses_sign (h ds t hs hlength hds)).bind

/-! ### Dates -/

theorem reads_fullDate {d : Date} (hd : d.Valid) (s : List Char) :
    Reads fullDate (d.text ++ s) d s := by
  have hdays : daysIn d.year d.month ≤ 31 := by
    rw [daysIn]
    split
    · split <;> decide
    · split <;> decide
  have hday := hd.day
  have hmonth := hd.month
  have hyear := hd.year
  have hread : Reads (dayOf d.year d.month) (padded 2 d.day ++ s) d.day s :=
    (reads_number (by decide) (by omega) hd.day_pos (by omega) s).checked (if_pos hd.day)
  have htext : d.text ++ s =
      padded 4 d.year ++ '-' :: (padded 2 d.month ++ '-' :: (padded 2 d.day ++ s)) := by
    simp [Date.text]
  rw [htext]
  refine (reads_number (by decide) (by omega) (Nat.zero_le _) hd.year _).bind ?_
  refine (reads_sign '-' _).bind ?_
  refine (reads_number (by decide) (by omega) hd.month_pos hd.month _).firm.bind ?_
  exact (reads_sign '-' _).firm.bind (hread.firm.bind (Reads.pure _ s))

/-! ### Times -/

/-- The fraction of a second is read back, whatever zeros were left out. -/
theorem reads_nanoseconds {n : Nat} (hn : n < 10 ^ 9) {ds : List Char}
    (hds : ds = ((padded 9 n).reverse.dropWhile (· == '0')).reverse) (hne : ds ≠ [])
    (hs : Stops Char.isDigit s) : Reads nanoseconds ('.' :: (ds ++ s)) n s := by
  have hlength : (padded 9 n).length = 9 := length_padded (by decide) hn
  have hzeros := trimmed_append (padded 9 n)
  rw [← hds, hlength] at hzeros
  have hle : ds.length ≤ 9 := by
    have hlen := congrArg List.length hzeros
    rw [List.length_append, hlength] at hlen
    omega
  have hdigits : ∀ d ∈ ds, d.isDigit := by
    intro d hd
    rw [hds] at hd
    exact isDigit_of_mem_padded (mem_of_mem_trimmed hd)
  have hmany : Reads (many1 Char.isDigit) (ds ++ s) ds s := by
    rw [Reads, many1, List.takeWhile_append_of_pos hdigits, List.dropWhile_append_of_pos hdigits,
      hs.takeWhile, hs.dropWhile, List.append_nil]
    cases ds with
    | nil => exact absurd rfl hne
    | cons d ds => rfl
  -- the reader fills up to nine digits, which puts back just what was left out
  have hvalue : ofDigits 10 (ds.take 9 ++ List.replicate (9 - (ds.take 9).length) '0') = n := by
    rw [List.take_of_length_le hle, hzeros, ofDigits_padded]
  rw [← hvalue]
  exact (reads_sign '.' (ds ++ s)).bind (hmany.bind (Reads.pure _ s))

/-- A fraction that is left out is none. -/
theorem eq_zero_of_trimmed {n : Nat} (hn : n < 10 ^ 9)
    (h : ((padded 9 n).reverse.dropWhile (· == '0')).reverse = []) : n = 0 := by
  have hzeros := trimmed_append (padded 9 n)
  rw [h, List.nil_append, length_padded (by decide) hn] at hzeros
  have hvalue := ofDigits_padded 9 n
  rw [← hzeros] at hvalue
  exact hvalue.symm

theorem reads_partialTime {t : Time} (ht : t.Valid)
    (hs : Stops (fun c => c.isDigit || c == '.') s) : Reads partialTime (t.text ++ s) t s := by
  have hhour := ht.hour
  have hminute := ht.minute
  have hsecond := ht.second
  -- a fraction that is not written is read as none, which stands for zero
  obtain ⟨o, hfraction, ho⟩ : ∃ o, Reads (optional nanoseconds)
      ((if ((padded 9 t.nanosecond).reverse.dropWhile (· == '0')).reverse.isEmpty then []
        else '.' :: ((padded 9 t.nanosecond).reverse.dropWhile (· == '0')).reverse) ++ s) o s ∧
        o.getD 0 = t.nanosecond := by
    split
    · next hempty =>
      have hpoint : s.head? ≠ some '.' := by
        intro hhead
        have hno := hs '.' hhead
        cases hno
      refine ⟨none, ((misses_sign hpoint).bind).optional, ?_⟩
      exact (eq_zero_of_trimmed ht.nanosecond (List.isEmpty_iff.mp hempty)).symm
    · next hempty =>
      have hdigit : Stops Char.isDigit s := fun c hc => (Bool.or_eq_false_iff.mp (hs c hc)).1
      exact ⟨_, (reads_nanoseconds ht.nanosecond rfl (mt List.isEmpty_iff.mpr hempty)
        hdigit).optional, rfl⟩
  have htext : t.text ++ s =
      padded 2 t.hour ++ ':' :: (padded 2 t.minute ++ ':' :: (padded 2 t.second ++
        ((if ((padded 9 t.nanosecond).reverse.dropWhile (· == '0')).reverse.isEmpty then []
          else '.' :: ((padded 9 t.nanosecond).reverse.dropWhile (· == '0')).reverse) ++ s))) := by
    simp only [Time.text, List.append_assoc, List.cons_append]
  rw [htext]
  refine (reads_number (by decide) (by omega) (Nat.zero_le _) hhour _).bind ?_
  refine (reads_sign ':' _).bind (Reads.firm ?_)
  refine (reads_number (by decide) (by omega) (Nat.zero_le _) hminute _).bind ?_
  refine (reads_sign ':' _).bind ?_
  refine (reads_number (by decide) (by omega) (Nat.zero_le _) hsecond _).bind ?_
  have hpure := Reads.pure (Time.mk t.hour t.minute t.second (o.getD 0)) s
  rw [ho] at hpure
  refine hfraction.bind ?_
  rw [ho]
  exact hpure

/-! ### Offsets -/

theorem reads_one {test : Char → Bool} {c : Char} (h : test c = true) (r : List Char) :
    Reads (one test) (c :: r) c r :=
  if_pos h

theorem misses_one {test : Char → Bool} (h : Stops test s) : Misses (one test) s := by
  cases s with
  | nil => exact ⟨_, rfl⟩
  | cons c s => exact ⟨_, if_neg (Bool.eq_false_iff.mp (h c rfl))⟩

theorem reads_offset {o : Offset} (ho : o.Valid) (s : List Char) :
    Reads offset (o.text ++ s) o s := by
  apply Reads.label
  cases o with
  | zulu =>
    refine Reads.orElse ?_ _
    exact Reads.bind (reads_one rfl s) (Reads.pure _ s)
  | minutes east =>
    have hlt : east.natAbs < 24 * 60 := ho
    have hhours : east.natAbs / 60 ≤ 23 := by omega
    have hminutes : east.natAbs % 60 ≤ 59 := by omega
    -- the sign stands before the hours only, and is that of the minutes too
    obtain ⟨mark, hmark, hvalue⟩ : ∃ mark : Char, (if east < 0 then '-' else '+') = mark ∧
        (mark = '-' ∨ mark = '+') ∧
        (if mark = '-' then -((east.natAbs / 60 : Nat) * 60 + (east.natAbs % 60 : Nat) : Int)
          else (east.natAbs / 60 : Nat) * 60 + (east.natAbs % 60 : Nat)) = east := by
      by_cases hneg : east < 0
      · refine ⟨'-', if_pos hneg, .inl rfl, ?_⟩
        rw [if_pos rfl]
        omega
      · refine ⟨'+', if_neg hneg, .inr rfl, ?_⟩
        rw [if_neg (by decide)]
        omega
    have htext : (Offset.minutes east).text ++ s =
        mark :: (padded 2 (east.natAbs / 60) ++ ':' :: (padded 2 (east.natAbs % 60) ++ s)) := by
      simp [Offset.text, hmark]
    obtain ⟨hsign, hvalue⟩ := hvalue
    have hzulu : (mark == 'Z' || mark == 'z') = false ∧ (mark == '+' || mark == '-') = true := by
      rcases hsign with rfl | rfl <;> decide
    rw [htext]
    refine ((misses_one (stops_cons hzulu.1 _)).bind).orElse ?_
    refine (reads_one hzulu.2 _).bind (Reads.firm ?_)
    refine (reads_number (by decide) (by omega) (Nat.zero_le _) hhours _).bind ?_
    refine (reads_sign ':' _).bind ?_
    refine (reads_number (by decide) (by omega) (Nat.zero_le _) hminutes _).bind ?_
    dsimp only
    rw [hvalue]
    exact Reads.pure _ s

/-! ### Dates and times -/

/-- Where a value ends, no time follows a date, not even after a blank. -/
theorem misses_timeAfterDate (hr : EndsValue r) : Misses timeAfterDate r := by
  cases r with
  | nil => exact (misses_one (stops_nil _)).bind
  | cons c r =>
    by_cases hc : c = ' '
    · subst hc
      have hdigit : Stops Char.isDigit r := (hr.tail rfl).stops rfl
      have htime : Misses partialTime r := (misses_number (by decide) hdigit).bind
      exact Reads.misses_bind (reads_one rfl r) htime.bind
    · have htest : (c == 'T' || c == 't' || c == ' ') = false := by
        have hletters : Stops (fun c => c == 'T' || c == 't') (c :: r) := hr.stops rfl
        have hends : (c == 'T' || c == 't') = false := hletters c rfl
        rw [hends, Bool.false_or]
        exact beq_eq_false_iff_ne.mpr hc
      exact (misses_one (stops_cons htest r)).bind

/-- A time is no date. -/
theorem misses_fullDate {t : Time} (ht : t.Valid) (s : List Char) :
    Misses fullDate (t.text ++ s) := by
  apply misses_number_sign
  intro ds u hs hlength hdigits
  have hhour := ht.hour
  have htwo : (padded 2 t.hour).length = 2 := length_padded (by decide) (by omega)
  obtain ⟨rest, htext⟩ : ∃ rest, t.text ++ s = padded 2 t.hour ++ ':' :: rest := by
    simp only [Time.text, List.append_assoc, List.cons_append]
    exact ⟨_, rfl⟩
  -- the third character is a colon, where a year has its third digit
  obtain ⟨x, y, hxy⟩ := List.length_eq_two.mp htwo
  rw [htext, hxy] at hs
  rcases ds with - | ⟨a, - | ⟨b, - | ⟨c, ds⟩⟩⟩
  · cases hlength
  · cases hlength
  · cases hlength
  · simp only [List.cons_append, List.nil_append, List.cons.injEq] at hs
    obtain ⟨-, -, rfl, -⟩ := hs
    exact absurd (hdigits ':' (by simp)) (by decide)

/-- **A date or time that there is is read back.** -/
theorem reads_datetime {d : Datetime} (hd : d.Valid) (hr : EndsValue r) :
    Reads datetime (d.text ++ r) d r := by
  have hend : Stops (fun c => c.isDigit || c == '.') r := hr.stops rfl
  -- a time without an offset must not take one from what follows the value
  have hnone : Misses offset r := by
    refine Misses.label _ (Misses.orElse_misses ?_ ?_)
    · exact (misses_one (hr.stops rfl)).bind
    · exact (misses_one (hr.stops rfl)).bind
  cases d with
  | date d =>
    refine Reads.orElse (Reads.label _ ?_) _
    refine (reads_fullDate hd r).bind ?_
    refine (misses_timeAfterDate hr).optional.bind ?_
    exact Reads.pure _ r
  | time t =>
    refine Misses.orElse (Misses.label _ (misses_fullDate hd r).bind) (Reads.label _ ?_)
    refine (reads_partialTime hd hend).bind ?_
    exact Reads.pure _ r
  | dateTime d t =>
    obtain ⟨hd, ht⟩ := hd
    have htime : Reads timeAfterDate ('T' :: (t.text ++ r)) (t, none) r := by
      refine Reads.bind (reads_one rfl _) ?_
      refine (reads_partialTime ht hend).bind ?_
      exact hnone.optional.bind (Reads.pure _ r)
    have htext : (Datetime.dateTime d t).text ++ r = d.text ++ 'T' :: (t.text ++ r) := by
      simp [Datetime.text]
    rw [htext]
    refine Reads.orElse (Reads.label _ ?_) _
    refine (reads_fullDate hd _).bind ?_
    refine htime.optional.bind ?_
    exact Reads.pure _ r
  | instant d t o =>
    obtain ⟨hd, ht, ho⟩ := hd
    have hmark : Stops (fun c => c.isDigit || c == '.') (o.text ++ r) := by
      cases o with
      | zulu => exact stops_cons rfl r
      | minutes east =>
        rw [Offset.text]
        split <;> exact stops_cons rfl _
    have htime : Reads timeAfterDate ('T' :: (t.text ++ (o.text ++ r))) (t, some o) r := by
      refine Reads.bind (reads_one rfl _) ?_
      refine (reads_partialTime ht hmark).bind ?_
      exact (reads_offset ho r).optional.bind (Reads.pure _ r)
    have htext : (Datetime.instant d t o).text ++ r =
        d.text ++ 'T' :: (t.text ++ (o.text ++ r)) := by
      simp [Datetime.text]
    rw [htext]
    refine Reads.orElse (Reads.label _ ?_) _
    refine (reads_fullDate hd _).bind ?_
    refine htime.optional.bind ?_
    exact Reads.pure _ r

end WorkspaceAudit.Toml

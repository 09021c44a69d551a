/-
WorkspaceAudit/Proofs/Json/Readers.lean

Readers and what they make of values.

`ReadsAs R m` says that the reader `R` does with a text what `m` does with the
value that the text says: where a text of a value stands, it is read to its end
with the answer of `m`, or refused if `m` has none; and nothing else is ever
accepted.  So what a reader accepts is told by `m` alone.

The rules follow the ways in which readers are put together: scalars, lists of
items, and records in both of their forms.
-/
import WorkspaceAudit.Proofs.Except
import WorkspaceAudit.Proofs.Json.Strings

namespace WorkspaceAudit.Json

variable {α β : Type}

/-! ### White space -/

theorem isSpace_iff {c : Char} : isSpace c = true ↔ c ∈ [' ', '\n', '\r', '\t'] := by
  simp [isSpace, or_assoc]

theorem blank_dropSpace (s : List Char) : Blank s (dropSpace s) := by
  induction s with
  | nil => exact .nil
  | cons c s ih =>
    rw [dropSpace, List.dropWhile_cons]
    split
    · next hc => exact .cons (isSpace_iff.mp hc) ih
    · exact .nil

/-- White space is dropped up to what is none. -/
theorem Blank.dropSpace_eq {s r : List Char} (h : Blank s r)
    (hr : ∀ c t, r = c :: t → isSpace c = false) : dropSpace s = r := by
  induction h with
  | @nil s =>
    rcases s with - | ⟨c, t⟩
    · rfl
    · rw [dropSpace, List.dropWhile_cons, hr c t rfl, if_neg (by simp)]
  | cons hc _ ih =>
    rw [dropSpace, List.dropWhile_cons, isSpace_iff.mpr hc, if_pos rfl]
    exact ih hr

theorem Blank.dropSpace_cons {s t : List Char} {c : Char} (h : Blank s (c :: t))
    (hc : isSpace c = false) : dropSpace s = c :: t := by
  refine h.dropSpace_eq ?_
  rintro _ _ ⟨⟩
  exact hc

theorem Blank.trans {s r r' : List Char} (h : Blank s r) (h' : Blank r r') : Blank s r' := by
  induction h with
  | nil => exact h'
  | cons hc _ ih => exact .cons hc (ih h')

theorem Lead.trans {first : Bool} {s r r' : List Char} (h : Lead first s r) (h' : Blank r r') :
    Lead first s r' := by
  cases h with
  | first hb => exact .first (hb.trans h')
  | next hb hb' => exact .next hb (hb'.trans h')

theorem Datum.Opens.not_isSpace {v : Datum} {c : Char} (h : v.Opens c) : isSpace c = false := by
  cases v with
  | null => cases h; decide
  | boolean b => cases b <;> cases h <;> decide
  | number lexeme =>
    rw [Bool.eq_false_iff]
    intro hs
    rw [isSpace_iff] at hs
    simp only [List.mem_cons, List.not_mem_nil, or_false] at hs
    rcases hs with rfl | rfl | rfl | rfl <;> rcases h with h | h <;> cases h
  | string x => cases h; decide
  | array vs => cases h; decide
  | object ms => cases h; decide

theorem Datum.Opens.ne_close {v : Datum} {c : Char} (h : v.Opens c) : c ≠ ']' := by
  rintro rfl
  cases v with
  | boolean b => cases b <;> cases h
  | number => rcases h with h | h <;> cases h
  | _ => cases h

/-! ### Reading a value -/

/-- What a reader answers where `r` is to be left: a value, or a refusal. -/
inductive Answers (r : List Char) : Except Fault (α × List Char) → Option α → Prop
  | ok (a : α) : Answers r (.ok (a, r)) (some a)
  | error (f : Fault) : Answers r (.error f) none

/-- One reader after another. -/
theorem Answers.bind {r r' : List Char} {x : Except Fault (α × List Char)} {o : Option α}
    {k : α × List Char → Except Fault (β × List Char)} {p : α → Option β}
    (h : Answers r x o) (hk : ∀ a, Answers r' (k (a, r)) (p a)) :
    Answers r' (x >>= k) (o.bind p) := by
  cases h with
  | ok a => exact hk a
  | error f => exact .error f

/-- The reader accepts the texts of the values of which `m` makes something, with
that answer, and nothing else. -/
structure ReadsAs (R : Reader α) (m : Datum → Option α) : Prop where
  complete : ∀ {s s' r : List Char} {v : Datum}, Blank s s' → Text s' v r → Answers r (R s) (m v)
  sound : ∀ {s r : List Char} {a : α}, R s = .ok (a, r) →
    ∃ s' v, Blank s s' ∧ Text s' v r ∧ m v = some a

/-- What is read is changed afterwards. -/
theorem ReadsAs.map {R : Reader α} {m : Datum → Option α} (h : ReadsAs R m) (f : α → β) :
    ReadsAs (fun s => do let (a, r) ← R s; return (f a, r)) fun v => (m v).map f := by
  constructor
  · intro s s' r v hb hv
    dsimp only
    have hR := h.complete hb hv
    generalize R s = x at hR ⊢
    generalize m v = o at hR ⊢
    cases hR with
    | ok a => exact .ok (f a)
    | error e => exact .error e
  · intro s r b hs
    obtain ⟨⟨a, r'⟩, hR, hb⟩ := bind_eq_ok hs
    cases hb
    obtain ⟨s', v, hblank, hv, hm⟩ := h.sound hR
    exact ⟨s', v, hblank, hv, by rw [hm]; rfl⟩

/-! ### Scalars -/

/-- The string that a value is. -/
def Datum.string? : Datum → Option String
  | .string x => some x
  | _ => none

theorem Datum.string?_eq_some_iff {v : Datum} {x : String} :
    v.string? = some x ↔ v = .string x := by
  cases v <;> simp [Datum.string?]

theorem Datum.string?_isSome_iff {v : Datum} : v.string?.isSome ↔ ∃ x, v = .string x := by
  simp only [Option.isSome_iff_exists, Datum.string?_eq_some_iff]

theorem mistyped_error (wanted : String) (s : List Char) :
    ∃ f, (mistyped wanted : Reader α) s = .error f := by
  rw [mistyped]
  split <;> exact ⟨_, rfl⟩

theorem answers_mistyped (wanted : String) (s r : List Char) :
    Answers r ((mistyped wanted : Reader α) s) none := by
  obtain ⟨f, hf⟩ := mistyped_error (α := α) wanted s
  rw [hf]
  exact .error f

theorem stringValue_readsAs (wanted : String) :
    ReadsAs (stringValue wanted) Datum.string? := by
  constructor
  · intro s s' r v hb hv
    obtain ⟨c, t, rfl, hc⟩ := hv.opens
    rw [stringValue, hb.dropSpace_cons hc.not_isSpace]
    split
    · next h => cases h
    · next t' h =>
      cases h
      obtain ⟨x, rfl⟩ := hc.eq_string
      obtain ⟨t, ht, hx⟩ := hv.of_string
      cases ht
      rw [string_eq_ok_iff.mpr hx]
      exact .ok x
    · next hquote =>
      have hnone : v.string? = none := by
        cases v with
        | string x => exact absurd (congrArg (· :: t) hc) (hquote t)
        | _ => rfl
      rw [hnone]
      exact answers_mistyped _ _ _
  · intro s r x h
    rw [stringValue] at h
    have hb := blank_dropSpace s
    split at h
    · cases h
    · next t ht =>
      rw [ht] at hb
      exact ⟨_, .string x, hb, .string (string_eq_ok_iff.mp h), rfl⟩
    · obtain ⟨f, hf⟩ := mistyped_error (α := String) wanted (dropSpace s)
      rw [hf] at h
      cases h

theorem word_eq_ok_iff {cs s r : List Char} : word cs s = .ok ((), r) ↔ s = cs ++ r := by
  induction cs generalizing s with
  | nil => simp [word]
  | cons c cs ih =>
    rcases s with - | ⟨d, s⟩
    · simp [word]
    · rw [word]
      split
      · next hcd => rw [ih, hcd, List.cons_append, List.cons.injEq]; simp
      · next hcd => simp [Ne.symm hcd]

/-- The string that a value is, or none for the value that stands for none. -/
def Datum.optionalString? : Datum → Option (Option String)
  | .null => some none
  | v => v.string?.map some

theorem optionalString_readsAs (wanted : String) :
    ReadsAs (optionalString wanted) Datum.optionalString? := by
  have hstring := (stringValue_readsAs wanted).map some
  constructor
  · intro s s' r v hb hv
    obtain ⟨c, t, rfl, hc⟩ := hv.opens
    rw [optionalString, hb.dropSpace_cons hc.not_isSpace]
    split
    · next t' h =>
      cases h
      obtain rfl := hc.eq_null
      have ht : t = "ull".toList ++ r := by simpa using hv.of_null
      rw [word_eq_ok_iff.mpr ht]
      exact .ok none
    · next hn =>
      have heq : v.optionalString? = v.string?.map some := by
        cases v with
        | null => exact absurd (congrArg (· :: t) hc) (hn t)
        | _ => rfl
      rw [heq]
      exact hstring.complete .nil hv
  · intro s r x h
    rw [optionalString] at h
    have hb := blank_dropSpace s
    split at h
    · next t ht =>
      obtain ⟨⟨⟨⟩, r'⟩, hw, hr⟩ := bind_eq_ok h
      cases hr
      rw [ht, word_eq_ok_iff.mp hw] at hb
      exact ⟨_, .null, hb, .null, rfl⟩
    · obtain ⟨s', v, hb', hv, hm⟩ := hstring.sound h
      refine ⟨s', v, hb.trans hb', hv, ?_⟩
      cases v with
      | null => cases hm
      | _ => exact hm

/-! ### Lists -/

theorem nextItem_nil {s r : List Char} (h : Blank s (']' :: r)) (first : Bool) :
    nextItem first s = .ok none := by
  rw [nextItem, h.dropSpace_cons (by decide)]
  rfl

/-- Before an item stands a bracket, or what leads to the item. -/
theorem nextItem_eq {first : Bool} {s t : List Char} {c : Char} (h : dropSpace s = c :: t)
    (hc : c ≠ ']') :
    nextItem first s =
      if first then .ok (some (c :: t))
      else if c = ',' then
        match dropSpace t with
        | [] => .error (.at [] .endInValue)
        | ']' :: r => .error (.after (']' :: r) .trailingComma)
        | r => .ok (some r)
      else .error (.after (c :: t) .listCommaExpected) := by
  rw [nextItem, h]
  split
  · next h => cases h
  · next h => exact absurd (List.cons.inj h).1 hc
  · next h =>
    cases h
    rfl

theorem nextItem_cons {first : Bool} {s t : List Char} {c : Char} (h : Lead first s (c :: t))
    (hc : isSpace c = false) (hclose : c ≠ ']') : nextItem first s = .ok (some (c :: t)) := by
  cases h with
  | first hb => rw [nextItem_eq (hb.dropSpace_cons hc) hclose, if_pos rfl]
  | next hb hb' =>
    rw [nextItem_eq (hb.dropSpace_cons (by decide)) (by decide), if_neg (by simp), if_pos rfl,
      hb'.dropSpace_cons hc]
    split
    · next h => cases h
    · next h => exact absurd (List.cons.inj h).1 hclose
    · rfl

/-- Where an item is looked for stands the bracket at the end, or what leads to
the next item. -/
theorem nextItem_sound {first : Bool} {s : List Char} {next : Option (List Char)}
    (h : nextItem first s = .ok next) :
    (next = none ∧ ∃ r, Blank s (']' :: r)) ∨ ∃ r, next = some r ∧ Lead first s r := by
  have hb := blank_dropSpace s
  rcases hs : dropSpace s with - | ⟨c, t⟩
  · rw [nextItem, hs] at h
    cases h
  rw [hs] at hb
  by_cases hc : c = ']'
  · subst hc
    rw [nextItem_nil hb] at h
    cases h
    exact .inl ⟨rfl, t, hb⟩
  refine .inr ?_
  rw [nextItem_eq hs hc] at h
  cases first with
  | true =>
    cases h
    exact ⟨_, rfl, .first hb⟩
  | false =>
    rw [if_neg (by simp)] at h
    split at h
    · next hcomma =>
      subst hcomma
      split at h
      · cases h
      · cases h
      · cases h
        exact ⟨_, rfl, .next hb (blank_dropSpace t)⟩
    · cases h

theorem closeList_eq {s r : List Char} (h : Blank s (']' :: r)) : closeList s = r := by
  rw [closeList, h.dropSpace_cons (by decide)]
  rfl

/-- The first of the values, and then the others. -/
theorem mapM_cons_map (m : Datum → Option α) (v : Datum) (vs : List Datum) (soFar : List α) :
    ((v :: vs).mapM m).map (soFar.reverse ++ ·) =
      (m v).bind fun a => (vs.mapM m).map ((a :: soFar).reverse ++ ·) := by
  rw [List.mapM_cons]
  rcases m v with - | a
  · rfl
  rcases vs.mapM m with - | as
  · rfl
  · simp

section Items

variable {item : Reader α} {m : Datum → Option α} (h : ReadsAs item m)
include h

theorem itemsFrom_complete {n : Nat} {soFar : List α} {s r : List Char} {vs : List Datum}
    (hn : s.length < n) (hvs : Listed Text soFar.isEmpty s vs (']' :: r)) :
    Answers r (itemsFrom item n soFar s) ((vs.mapM m).map (soFar.reverse ++ ·)) := by
  -- each item takes something, so there are rounds enough
  induction vs generalizing n soFar s with
  | nil =>
    obtain ⟨n, rfl⟩ := Nat.exists_eq_add_one_of_ne_zero (Nat.ne_zero_of_lt hn)
    cases hvs with
    | nil hb =>
      rw [itemsFrom, nextItem_nil hb]
      show Answers r (.ok (soFar.reverse, closeList s)) _
      rw [closeList_eq hb, List.mapM_nil]
      show Answers r _ (some (soFar.reverse ++ []))
      rw [List.append_nil]
      exact .ok _
  | cons v vs ih =>
    obtain ⟨n, rfl⟩ := Nat.exists_eq_add_one_of_ne_zero (Nat.ne_zero_of_lt hn)
    cases hvs with
    | @cons _ _ s' r₁ _ _ _ hl hv hvs =>
      obtain ⟨c, t, rfl, hc⟩ := hv.opens
      rw [itemsFrom, nextItem_cons hl hc.not_isSpace hc.ne_close, mapM_cons_map]
      refine (h.complete .nil hv).bind fun a => ih ?_ hvs
      have hlt := hv.shorter
      have hle := hl.length_le
      omega

theorem itemsFrom_sound {n : Nat} {soFar as : List α} {s r : List Char}
    (hs : itemsFrom item n soFar s = .ok (as, r)) :
    ∃ vs, Listed Text soFar.isEmpty s vs (']' :: r) ∧
      (vs.mapM m).map (soFar.reverse ++ ·) = some as := by
  induction n generalizing soFar s with
  | zero => cases hs
  | succ n ih =>
    rw [itemsFrom] at hs
    obtain ⟨next, hnext, hs⟩ := bind_eq_ok hs
    rcases nextItem_sound hnext with ⟨rfl, r', hb⟩ | ⟨s', rfl, hl⟩
    · cases hs
      rw [closeList_eq hb]
      exact ⟨[], .nil hb, by rw [List.mapM_nil]; simp⟩
    · obtain ⟨⟨a, r₁⟩, ha, hs⟩ := bind_eq_ok hs
      obtain ⟨s'', v, hb, hv, hm⟩ := h.sound ha
      obtain ⟨vs, hvs, has⟩ := ih hs
      refine ⟨v :: vs, .cons (hl.trans hb) hv hvs, ?_⟩
      rw [mapM_cons_map, hm]
      exact has

/-- The items of a list are read as the values of a list. -/
theorem items_complete {s r : List Char} {vs : List Datum}
    (hvs : Listed Text true s vs (']' :: r)) : Answers r (items item s) (vs.mapM m) := by
  have hitems : Answers r (items item s) ((vs.mapM m).map ([].reverse ++ ·)) :=
    itemsFrom_complete h (Nat.lt_succ_self s.length) hvs
  simpa using hitems

theorem items_sound {s r : List Char} {as : List α} (hs : items item s = .ok (as, r)) :
    ∃ vs, Listed Text true s vs (']' :: r) ∧ vs.mapM m = some as := by
  obtain ⟨vs, hvs, has⟩ := itemsFrom_sound h hs
  exact ⟨vs, hvs, by simpa using has⟩

end Items

end WorkspaceAudit.Json

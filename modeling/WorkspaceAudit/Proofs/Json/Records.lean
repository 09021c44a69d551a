/-
WorkspaceAudit/Proofs/Json/Records.lean

What is read of a record, in either of its forms.

`RecordForm.ofMembers` and `RecordForm.ofValues` say what a form makes of the
members of an object, and of the values of a list, if it is known what it makes
of the value of each field.  A record is read as they say
(`RecordForm.record_readsAs`): each member in turn, if its key is one of the
fields and did not stand before, and the values of a list in the order of the
fields.
-/
import WorkspaceAudit.Proofs.Json.Readers

namespace WorkspaceAudit.Json

variable {α σ : Type}

/-! ### Keys -/

theorem nextKey_nil {s r : List Char} (h : Blank s ('\x7d' :: r)) (first : Bool) :
    nextKey first s = .ok none := by
  rw [nextKey, h.dropSpace_cons (by decide)]
  rfl

/-- Before a key stands a brace, or what leads to the key. -/
theorem nextKey_eq {first : Bool} {s t : List Char} {c : Char} (h : dropSpace s = c :: t)
    (hc : c ≠ '\x7d') :
    nextKey first s =
      if first then
        if c = '"' then .ok (some t) else .error (.after (c :: t) .keyNotString)
      else if c = ',' then
        match dropSpace t with
        | [] => .error (.at [] .endInValue)
        | '"' :: r => .ok (some r)
        | '\x7d' :: r => .error (.after ('\x7d' :: r) .trailingComma)
        | r => .error (.after r .keyNotString)
      else .error (.after (c :: t) .objectCommaExpected) := by
  rw [nextKey, h]
  split
  · next h => cases h
  · next h => exact absurd (List.cons.inj h).1 hc
  · next h =>
    cases h
    rfl

theorem nextKey_cons {first : Bool} {s t : List Char} (h : Lead first s ('"' :: t)) :
    nextKey first s = .ok (some t) := by
  cases h with
  | first hb =>
    rw [nextKey, hb.dropSpace_cons (by decide)]
    rfl
  | next hb hb' =>
    rw [nextKey_eq (hb.dropSpace_cons (by decide)) (by decide), if_neg (by simp), if_pos rfl,
      hb'.dropSpace_cons (by decide)]
    rfl

/-- Where a key is looked for stands the brace at the end, or what leads to the
next key. -/
theorem nextKey_sound {first : Bool} {s : List Char} {next : Option (List Char)}
    (h : nextKey first s = .ok next) :
    (next = none ∧ ∃ r, dropSpace s = '\x7d' :: r) ∨
      ∃ r, next = some r ∧ Lead first s ('"' :: r) := by
  have hb := blank_dropSpace s
  rw [nextKey] at h
  split at h
  · cases h
  · next r hs =>
    cases h
    exact .inl ⟨rfl, r, hs⟩
  next c t hc hs =>
  rw [hs] at hb
  refine .inr ?_
  cases first with
  | true =>
    rw [if_pos rfl] at h
    split at h
    · next hquote =>
      cases h
      subst hquote
      exact ⟨t, rfl, .first hb⟩
    · cases h
  | false =>
    rw [if_neg (by simp)] at h
    split at h
    · next hcomma =>
      subst hcomma
      split at h
      · cases h
      · next r hr =>
        cases h
        exact ⟨r, rfl, .next hb (hr ▸ blank_dropSpace t)⟩
      · cases h
      · cases h
    · cases h

theorem colon_eq_ok_iff {s r : List Char} : colon s = .ok ((), r) ↔ Blank s (':' :: r) := by
  rw [colon]
  constructor
  · intro h
    have hb := blank_dropSpace s
    split at h
    · cases h
    · next hs =>
      cases h
      exact hs ▸ hb
    · cases h
  · intro h
    rw [h.dropSpace_cons (by decide)]
    rfl

theorem listEnd_eq_ok_iff {s r : List Char} : listEnd s = .ok ((), r) ↔ Blank s (']' :: r) := by
  rw [listEnd]
  constructor
  · intro h
    have hb := blank_dropSpace s
    split at h
    · cases h
    · next hs =>
      cases h
      exact hs ▸ hb
    · split at h <;> cases h
    · cases h
  · intro h
    rw [h.dropSpace_cons (by decide)]
    rfl

/-- A list does not end where an item stands. -/
theorem listEnd_error {first : Bool} {s t : List Char} {c : Char} (h : Lead first s (c :: t))
    (hc : isSpace c = false) (hclose : c ≠ ']') : ∃ f, listEnd s = .error f := by
  rcases hend : listEnd s with f | ⟨⟨⟩, r⟩
  · exact ⟨f, rfl⟩
  have hs := (listEnd_eq_ok_iff.mp hend).dropSpace_cons (by decide)
  cases h with
  | first hb =>
    rw [hb.dropSpace_cons hc] at hs
    exact absurd (List.cons.inj hs).1 hclose
  | next hb _ =>
    rw [hb.dropSpace_cons (by decide)] at hs
    exact absurd (List.cons.inj hs).1 (by decide)

theorem settle_eq_ok_iff {close : List Char → List Char} {x : Except Fault α} {a : α} :
    settle close x = .ok a ↔ x = .ok a := by
  cases x <;> simp [settle]

/-! ### Members and values -/

namespace RecordForm

variable (form : RecordForm σ) (m : String → σ → Datum → Option σ)

/-- What is made of the members of an object after members with these keys. -/
def ofMembers : List String → σ → List (String × Datum) → Option σ
  | _, record, [] => some record
  | seen, record, (key, v) :: ms =>
    if key ∈ form.fields ∧ key ∉ seen then
      (m key record v).bind fun record => ofMembers (key :: seen) record ms
    else none

/-- What is made of values for these fields, and how many fields are left. -/
def ofValues : List String → σ → List Datum → Option (σ × Nat)
  | fields, record, [] => some (record, fields.length)
  | [], _, _ :: _ => none
  | field :: fields, record, v :: vs =>
    (m field record v).bind fun record => ofValues fields record vs

variable {form m}

/-- The values of all fields are read as `m` says. -/
def ReadsFields (form : RecordForm σ) (m : String → σ → Datum → Option σ) : Prop :=
  ∀ field ∈ form.fields, ∀ record, ReadsAs (form.read field record) (m field record)

/-- A member with a new key of a field is read, and then the others. -/
theorem membersFrom_member {n : Nat} {seen : List String} {record : σ} {key : String}
    {s t r₁ r₂ : List Char} (hl : Lead seen.isEmpty s ('"' :: t))
    (hkey : StringText t key.toList r₁) (hcolon : Blank r₁ (':' :: r₂))
    (hf : key ∈ form.fields) (hnew : key ∉ seen) :
    form.membersFrom (n + 1) seen record s =
      form.read key record r₂ >>= fun x => form.membersFrom n (key :: seen) x.1 x.2 := by
  rw [membersFrom, nextKey_cons hl]
  show string t >>= _ = _
  rw [string_eq_ok_iff.mpr hkey]
  dsimp only [bind, Except.bind]
  rw [if_neg (by simp [hf]), if_neg (by simp [hnew]), colon_eq_ok_iff.mpr hcolon]

theorem membersFrom_complete (h : form.ReadsFields m) {n : Nat} {seen : List String}
    {record : σ} {s r : List Char} {ms : List (String × Datum)} (hn : s.length < n)
    (hms : Listed (Member Text) seen.isEmpty s ms ('\x7d' :: r)) :
    Answers ('\x7d' :: r) (form.membersFrom n seen record s) (form.ofMembers m seen record ms) := by
  induction ms generalizing n seen record s with
  | nil =>
    obtain ⟨n, rfl⟩ := Nat.exists_eq_add_one_of_ne_zero (Nat.ne_zero_of_lt hn)
    cases hms with
    | nil hb =>
      rw [membersFrom, nextKey_nil hb]
      show Answers _ (.ok (record, dropSpace s)) _
      rw [hb.dropSpace_cons (by decide)]
      exact .ok record
  | cons e ms ih =>
    obtain ⟨n, rfl⟩ := Nat.exists_eq_add_one_of_ne_zero (Nat.ne_zero_of_lt hn)
    obtain ⟨key, v⟩ := e
    cases hms with
    | cons hl hm hms =>
      cases hm with
      | mk hkey hb hb' hv =>
        have hlt : _ < n := Nat.lt_of_lt_of_le (member_shorter hkey hb hb' hv.shorter)
          (Nat.le_trans hl.length_le (Nat.le_of_lt_succ hn))
        rw [ofMembers]
        by_cases hnew : key ∈ form.fields ∧ key ∉ seen
        · rw [membersFrom_member hl hkey hb hnew.1 hnew.2, if_pos hnew]
          exact ((h key hnew.1 record).complete hb' hv).bind fun record => ih hlt hms
        · rw [membersFrom, nextKey_cons hl, if_neg hnew]
          show Answers _ (string _ >>= _) _
          rw [string_eq_ok_iff.mpr hkey]
          dsimp only [bind, Except.bind]
          by_cases hf : key ∈ form.fields
          · have hseen : key ∈ seen := Decidable.byContradiction fun hseen => hnew ⟨hf, hseen⟩
            rw [if_neg (by simp [hf]), if_pos (by simp [hseen])]
            exact .error _
          · rw [if_pos (by simp [hf])]
            exact .error _

theorem membersFrom_sound (h : form.ReadsFields m) {n : Nat} {seen : List String}
    {record record' : σ} {s r : List Char}
    (hs : form.membersFrom n seen record s = .ok (record', r)) :
    ∃ ms r', r = '\x7d' :: r' ∧ Listed (Member Text) seen.isEmpty s ms r ∧
      form.ofMembers m seen record ms = some record' := by
  induction n generalizing seen record s with
  | zero => cases hs
  | succ n ih =>
    rw [membersFrom] at hs
    obtain ⟨next, hnext, hs⟩ := bind_eq_ok hs
    rcases nextKey_sound hnext with ⟨rfl, r', hr'⟩ | ⟨t, rfl, hl⟩
    · cases hs
      exact ⟨[], r', hr', .nil (blank_dropSpace s), rfl⟩
    · obtain ⟨⟨key, r₁⟩, hkey, hs⟩ := bind_eq_ok hs
      dsimp only at hs
      split at hs
      · cases hs
      next hf =>
      split at hs
      · cases hs
      next hseen =>
      obtain ⟨⟨⟨⟩, r₂⟩, hcolon, hs⟩ := bind_eq_ok hs
      obtain ⟨⟨record₁, r₃⟩, hread, hs⟩ := bind_eq_ok hs
      simp only [Bool.not_eq_true', Bool.not_eq_false, List.contains_iff_mem] at hf hseen
      obtain ⟨s', v, hb, hv, hm⟩ := (h key hf record).sound hread
      obtain ⟨ms, r', hr', hms, hrecord⟩ := ih hs
      refine ⟨(key, v) :: ms, r', hr', .cons hl ?_ hms, ?_⟩
      · exact .mk (string_eq_ok_iff.mp hkey) (colon_eq_ok_iff.mp hcolon) hb hv
      · rw [ofMembers, if_pos ⟨hf, hseen⟩, hm]
        exact hrecord

/-- The value of a field is read, and then the others. -/
theorem valuesFrom_value {first : Bool} {field : String} {fields : List String} {record : σ}
    {s t : List Char} {c : Char} (hl : Lead first s (c :: t)) (hc : isSpace c = false)
    (hclose : c ≠ ']') :
    form.valuesFrom first (field :: fields) record s =
      form.read field record (c :: t) >>= fun x => form.valuesFrom false fields x.1 x.2 := by
  rw [valuesFrom, nextItem_cons hl hc hclose]
  rfl

/-- Values are read up to the end of their list, or all that there are fields for;
if they do not fit the fields, then they are not read, or the list does not end
after them. -/
theorem valuesFrom_complete (h : form.ReadsFields m) {first : Bool} {fields : List String}
    (hfields : ∀ field ∈ fields, field ∈ form.fields) (record : σ) {s r : List Char}
    {vs : List Datum} (hvs : Listed Text first s vs (']' :: r)) :
    match ofValues m fields record vs with
    | some x => ∃ s', form.valuesFrom first fields record s = .ok (x, s') ∧ Blank s' (']' :: r)
    | none => ∀ x s', form.valuesFrom first fields record s = .ok (x, s') →
        ∃ f, listEnd s' = .error f := by
  induction fields generalizing first record s vs with
  | nil =>
    cases hvs with
    | nil hb => exact ⟨s, rfl, hb⟩
    | cons hl hv _ =>
      rintro x s' hs
      cases hs
      obtain ⟨c, t, rfl, hc⟩ := hv.opens
      exact listEnd_error hl hc.not_isSpace hc.ne_close
  | cons field fields ih =>
    cases hvs with
    | nil hb =>
      rw [valuesFrom, nextItem_nil hb]
      exact ⟨s, rfl, hb⟩
    | @cons _ _ _ r₁ _ v vs hl hv hvs =>
      obtain ⟨c, t, rfl, hc⟩ := hv.opens
      have hread := (h field (hfields field List.mem_cons_self) record).complete .nil hv
      rw [valuesFrom_value hl hc.not_isSpace hc.ne_close, ofValues]
      dsimp only [bind, Except.bind]
      generalize form.read field record (c :: t) = x at hread ⊢
      generalize m field record v = o at hread ⊢
      cases hread with
      | ok record => exact ih (fun f hf => hfields f (List.mem_cons_of_mem _ hf)) record hvs
      | error f =>
        rintro x s' hs
        cases hs

theorem valuesFrom_sound (h : form.ReadsFields m) {first : Bool} {fields : List String}
    (hfields : ∀ field ∈ fields, field ∈ form.fields) {record : σ} {s s' r : List Char}
    {x : σ × Nat} (hs : form.valuesFrom first fields record s = .ok (x, s'))
    (hend : listEnd s' = .ok ((), r)) :
    ∃ vs, Listed Text first s vs (']' :: r) ∧ ofValues m fields record vs = some x := by
  induction fields generalizing first record s with
  | nil =>
    cases hs
    exact ⟨[], .nil (listEnd_eq_ok_iff.mp hend), rfl⟩
  | cons field fields ih =>
    rw [valuesFrom] at hs
    obtain ⟨next, hnext, hs⟩ := bind_eq_ok hs
    rcases nextItem_sound hnext with ⟨rfl, -⟩ | ⟨t, rfl, hl⟩
    · cases hs
      exact ⟨[], .nil (listEnd_eq_ok_iff.mp hend), rfl⟩
    · obtain ⟨⟨record₁, r₁⟩, hread, hs⟩ := bind_eq_ok hs
      obtain ⟨s'', v, hb, hv, hm⟩ := (h field (hfields field List.mem_cons_self) record).sound hread
      obtain ⟨vs, hvs, hx⟩ := ih (fun f hf => hfields f (List.mem_cons_of_mem _ hf)) hs
      refine ⟨v :: vs, .cons (hl.trans hb) hv hvs, ?_⟩
      rw [ofValues, hm]
      exact hx

/-! ### Records -/

/-- What a form makes of a value. -/
def ofDatum? (form : RecordForm σ) (m : String → σ → Datum → Option σ) (start : σ)
    (complete : Option Nat → σ → Except Problem α) : Datum → Option α
  | .object ms => (form.ofMembers m [] start ms).bind fun record => (complete none record).toOption
  | .array vs => (ofValues m form.fields start vs).bind fun (record, left) =>
      (complete (some (form.fields.length - left)) record).toOption
  | _ => none

section Record

variable (h : form.ReadsFields m) (start : σ) (complete : Option Nat → σ → Except Problem α)
include h

/-- An object is read as what is made of its members. -/
theorem record_object {s t r : List Char} {ms : List (String × Datum)}
    (hs : dropSpace s = '\x7b' :: t) (hms : Listed (Member Text) true t ms ('\x7d' :: r)) :
    Answers r (form.record start complete s) (form.ofDatum? m start complete (.object ms)) := by
  have hmembers : Answers ('\x7d' :: r) (form.membersFrom (t.length + 1) [] start t)
    (form.ofMembers m [] start ms) := membersFrom_complete h (Nat.lt_succ_self _) hms
  rw [record, hs, ofDatum?]
  show Answers r (settle closeObject (form.membersFrom (t.length + 1) [] start t >>= _) >>= _) _
  generalize form.membersFrom (t.length + 1) [] start t = x at hmembers ⊢
  generalize form.ofMembers m [] start ms = o at hmembers ⊢
  cases hmembers with
  | error f => exact .error _
  | ok record =>
    dsimp only [bind, Except.bind, Option.bind]
    rcases complete none record with p | a
    · exact .error _
    · exact .ok a

/-- A list is read as what is made of its values. -/
theorem record_list {s t r : List Char} {vs : List Datum} (hs : dropSpace s = '[' :: t)
    (hvs : Listed Text true t vs (']' :: r)) :
    Answers r (form.record start complete s) (form.ofDatum? m start complete (.array vs)) := by
  have hvalues := valuesFrom_complete h (fun _ hf => hf) start hvs
  rw [record, hs, ofDatum?]
  show Answers r (settle closeList (form.valuesFrom true form.fields start t >>= _) >>= _) _
  generalize form.valuesFrom true form.fields start t = x at hvalues ⊢
  generalize ofValues m form.fields start vs = o at hvalues ⊢
  rcases o with - | ⟨record, left⟩
  · -- whatever the record is, its list does not end
    rcases x with f | ⟨⟨record, left⟩, s'⟩
    · exact .error _
    obtain ⟨f, hf⟩ := hvalues (record, left) s' rfl
    dsimp only [bind, Except.bind, Option.bind]
    rcases complete (some (form.fields.length - left)) record with p | a
    · exact .error _
    · show Answers r (listEnd s' >>= _) none
      rw [hf]
      exact .error _
  · obtain ⟨s', hx, hend⟩ := hvalues
    rw [hx]
    dsimp only [bind, Except.bind, Option.bind]
    rcases complete (some (form.fields.length - left)) record with p | a
    · exact .error _
    · show Answers r (listEnd s' >>= _) (some a)
      rw [listEnd_eq_ok_iff.mpr hend]
      exact .ok a

theorem record_complete {s s' r : List Char} {v : Datum} (hb : Blank s s') (hv : Text s' v r) :
    Answers r (form.record start complete s) (form.ofDatum? m start complete v) := by
  obtain ⟨c, t, rfl, hc⟩ := hv.opens
  have hs := hb.dropSpace_cons hc.not_isSpace
  by_cases hbrace : c = '\x7b'
  · subst hbrace
    obtain ⟨ms, rfl⟩ := hc.eq_object
    obtain ⟨t', ht, hms⟩ := hv.of_object
    cases ht
    exact record_object h start complete hs hms
  by_cases hbracket : c = '['
  · subst hbracket
    obtain ⟨vs, rfl⟩ := hc.eq_array
    obtain ⟨t', ht, hvs⟩ := hv.of_array
    cases ht
    exact record_list h start complete hs hvs
  have hnone : form.ofDatum? m start complete v = none := by
    cases v with
    | object ms => exact absurd hc hbrace
    | array vs => exact absurd hc hbracket
    | _ => rfl
  rw [record, hs, hnone]
  split
  · next h => cases h
  · next h => exact absurd (List.cons.inj h).1 hbrace
  · next h => exact absurd (List.cons.inj h).1 hbracket
  · exact answers_mistyped _ _ _

/-- What is read as a record is an object or a list of which something is made. -/
theorem record_sound {s r : List Char} {a : α} (hs : form.record start complete s = .ok (a, r)) :
    ∃ s' v, Blank s s' ∧ Text s' v r ∧ form.ofDatum? m start complete v = some a := by
  rw [record] at hs
  have hb := blank_dropSpace s
  split at hs
  · cases hs
  · next t ht =>
    rw [ht] at hb
    obtain ⟨⟨b, r₁⟩, hbody, hs⟩ := bind_eq_ok hs
    cases hs
    rw [settle_eq_ok_iff] at hbody
    obtain ⟨⟨record, r₂⟩, hmembers, hbody⟩ := bind_eq_ok hbody
    obtain ⟨ms, r, rfl, hms, hrecord⟩ := membersFrom_sound h hmembers
    dsimp only at hbody
    split at hbody
    · next hcomplete =>
      cases hbody
      refine ⟨_, .object ms, hb, .object hms, ?_⟩
      rw [ofDatum?, hrecord]
      show (complete none record).toOption = some a
      rw [hcomplete]
      rfl
    · cases hbody
  · next t ht =>
    rw [ht] at hb
    obtain ⟨⟨b, r₁⟩, hbody, hs⟩ := bind_eq_ok hs
    obtain ⟨⟨⟨⟩, r₂⟩, hend, hs⟩ := bind_eq_ok hs
    cases hs
    rw [settle_eq_ok_iff] at hbody
    obtain ⟨⟨⟨record, left⟩, r₃⟩, hvalues, hbody⟩ := bind_eq_ok hbody
    dsimp only at hbody
    split at hbody
    · next hcomplete =>
      cases hbody
      obtain ⟨vs, hvs, hrecord⟩ := valuesFrom_sound h (fun _ hf => hf) hvalues hend
      refine ⟨_, .array vs, hb, .array hvs, ?_⟩
      rw [ofDatum?, hrecord]
      show (complete _ record).toOption = some a
      rw [hcomplete]
      rfl
    · cases hbody
  · obtain ⟨f, hf⟩ := mistyped_error (α := α) form.wanted (dropSpace s)
    rw [hf] at hs
    cases hs

/-- **A record is read in both of its forms**, and from nothing else. -/
theorem record_readsAs : ReadsAs (form.record start complete) (form.ofDatum? m start complete) :=
  ⟨record_complete h start complete, record_sound h start complete⟩

end Record

end RecordForm

/-! ### Whole texts -/

section Whole

variable {R : Reader α} {m : Datum → Option α} (h : ReadsAs R m) {text : String}
include h

/-- A text that says a value is accepted as the value is. -/
theorem whole_eq_ok_iff {v : Datum} (hv : Says text v) {a : α} :
    whole R text.toList = .ok a ↔ m v = some a := by
  obtain ⟨s, r, hb, hv, hb'⟩ := hv
  have hread := h.complete hb hv
  rw [whole]
  generalize R text.toList = x at hread ⊢
  generalize m v = o at hread ⊢
  cases hread with
  | error f => simp [bind, Except.bind]
  | ok b =>
    have hr : dropSpace r = [] := hb'.dropSpace_eq nofun
    simp [bind, Except.bind, hr, pure, Except.pure]

/-- A text that is accepted says a value. -/
theorem says_of_whole {a : α} (ha : whole R text.toList = .ok a) :
    ∃ v, Says text v ∧ m v = some a := by
  rw [whole] at ha
  obtain ⟨⟨b, r⟩, hread, ha⟩ := bind_eq_ok ha
  obtain ⟨s, v, hb, hv, hm⟩ := h.sound hread
  have hb' := blank_dropSpace r
  dsimp only at ha
  split at ha
  · next hr =>
    cases ha
    rw [hr] at hb'
    exact ⟨v, ⟨s, r, hb, hv, hb'⟩, hm⟩
  · cases ha

end Whole

end WorkspaceAudit.Json

/-
WorkspaceAudit/Proofs/Json/Refusals.lean

What a text is refused for.

`Refuses R v p` says that the reader `R` refuses every text of the value `v`, and
that the problem is `p`.  A record is refused for the first of its values that is:
what stands before is read, and the problem of that value is what the whole record,
and in the end the whole text, is refused for.  What stands after it is not looked
at.
-/
import WorkspaceAudit.Proofs.Json.Records

namespace WorkspaceAudit.Json

variable {α β σ : Type}

/-- Every text of the value is refused, for this problem. -/
def Refuses (R : Reader α) (v : Datum) (p : Problem) : Prop :=
  ∀ ⦃s s' r : List Char⦄, Blank s s' → Text s' v r → ∃ f, R s = .error f ∧ f.problem = p

theorem Answers.eq_ok {r : List Char} {x : Except Fault (α × List Char)} {a : α}
    (h : Answers r x (some a)) : x = .ok (a, r) := by
  cases h
  rfl

/-- What would be done with the answer does not matter. -/
theorem Refuses.map {R : Reader α} {v : Datum} {p : Problem} (h : Refuses R v p) (g : α → β) :
    Refuses (fun s => do let (a, r) ← R s; return (g a, r)) v p := by
  intro s s' r hb hv
  obtain ⟨f, hf, hp⟩ := h hb hv
  refine ⟨f, ?_, hp⟩
  dsimp only
  rw [hf]
  rfl

/-- A fault keeps its problem when it gets its place. -/
theorem settle_error (close : List Char → List Char) (f : Fault) :
    ∃ f', settle close (.error f : Except Fault α) = .error f' ∧ f'.problem = f.problem := by
  rw [settle]
  split
  · exact ⟨f, rfl, rfl⟩
  · exact ⟨_, rfl, rfl⟩

namespace RecordForm

variable {form : RecordForm σ} {m : String → σ → Datum → Option σ}

section Fields

variable (h : form.ReadsFields m) {field : String} {v : Datum} {p : Problem}
  (hv : ∀ record, Refuses (form.read field record) v p)
include h hv

/-- The members before the refused one are read one by one. -/
theorem membersFrom_refuses (hf : field ∈ form.fields) {n : Nat} {seen : List String} {record : σ}
    {s r : List Char} {before after : List (String × Datum)} (hn : s.length < n)
    {record' : σ} (hbefore : form.ofMembers m seen record before = some record')
    (hnew : field ∉ before.map Prod.fst ++ seen)
    (hms : Listed (Member Text) seen.isEmpty s (before ++ (field, v) :: after) ('\x7d' :: r)) :
    ∃ f, form.membersFrom n seen record s = .error f ∧ f.problem = p := by
  obtain ⟨n, rfl⟩ := Nat.exists_eq_add_one_of_ne_zero (Nat.ne_zero_of_lt hn)
  induction before generalizing n seen record s with
  | nil =>
    cases hms with
    | cons hl hm _ =>
      cases hm with
      | mk hkey hcolon hb hvalue =>
        obtain ⟨f, hread, hp⟩ := hv record hb hvalue
        refine ⟨f, ?_, hp⟩
        rw [membersFrom_member hl hkey hcolon hf hnew, hread]
        rfl
  | cons e before ih =>
    obtain ⟨key, w⟩ := e
    cases hms with
    | cons hl hm hms =>
      cases hm with
      | mk hkey hcolon hb hvalue =>
        have hlt := member_shorter hkey hcolon hb hvalue.shorter
        have hle := hl.length_le
        obtain ⟨n, rfl⟩ : ∃ k, n = k + 1 := Nat.exists_eq_add_one_of_ne_zero (by omega)
        rw [ofMembers] at hbefore
        split at hbefore
        · next hknown =>
          obtain ⟨record₁, hread, hbefore⟩ := Option.bind_eq_some_iff.mp hbefore
          have hanswer := (h key hknown.1 record).complete hb hvalue
          rw [hread] at hanswer
          rw [membersFrom_member hl hkey hcolon hknown.1 hknown.2, hanswer.eq_ok]
          refine ih hbefore ?_ hms n (by omega)
          simp only [List.map_cons, List.cons_append, List.mem_cons, List.mem_append, not_or]
            at hnew ⊢
          exact ⟨hnew.2.1, hnew.1, hnew.2.2⟩
        · cases hbefore

/-- The values before the refused one are read one by one. -/
theorem valuesFrom_refuses {first : Bool} {fields fields' : List String}
    (hfields : ∀ f ∈ fields, f ∈ form.fields) {record : σ} {s r : List Char}
    {before after : List Datum} (hlength : before.length = fields.length)
    {x : σ × Nat} (hbefore : ofValues m fields record before = some x)
    (hvs : Listed Text first s (before ++ v :: after) (']' :: r)) :
    ∃ f, form.valuesFrom first (fields ++ field :: fields') record s = .error f ∧
      f.problem = p := by
  induction before generalizing first fields record s with
  | nil =>
    obtain rfl := List.length_eq_zero_iff.mp hlength.symm
    cases hvs with
    | cons hl hvalue _ =>
      obtain ⟨c, t, rfl, hc⟩ := hvalue.opens
      obtain ⟨f, hread, hp⟩ := hv record .nil hvalue
      refine ⟨f, ?_, hp⟩
      rw [List.nil_append, valuesFrom_value hl hc.not_isSpace hc.ne_close, hread]
      rfl
  | cons w before ih =>
    obtain ⟨field₁, fields, rfl⟩ : ∃ f fs, fields = f :: fs :=
      List.exists_cons_of_length_eq_add_one (by simpa using hlength.symm)
    rw [List.forall_mem_cons] at hfields
    cases hvs with
    | cons hl hvalue hvs =>
      obtain ⟨c, t, rfl, hc⟩ := hvalue.opens
      rw [ofValues] at hbefore
      obtain ⟨record₁, hread, hbefore⟩ := Option.bind_eq_some_iff.mp hbefore
      have hanswer := (h field₁ hfields.1 record).complete .nil hvalue
      rw [hread] at hanswer
      rw [List.cons_append, valuesFrom_value hl hc.not_isSpace hc.ne_close, hanswer.eq_ok]
      exact ih hfields.2 (Nat.succ.inj hlength) hbefore hvs

variable (start : σ) (complete : Option Nat → σ → Except Problem α)

/-- An object is refused for a member of it that is, if those before are read. -/
theorem record_refuses_object (hf : field ∈ form.fields) {before after : List (String × Datum)}
    {read : σ} (hbefore : form.ofMembers m [] start before = some read)
    (hnew : field ∉ before.map Prod.fst) :
    Refuses (form.record start complete) (.object (before ++ (field, v) :: after)) p := by
  intro s s' r hb htext
  obtain ⟨t, rfl, hms⟩ := htext.of_object
  obtain ⟨f, hmembers, hp⟩ := membersFrom_refuses h hv hf (Nat.lt_succ_self t.length) hbefore
    (by rwa [List.append_nil]) hms
  obtain ⟨f', hsettle, hp'⟩ := settle_error (α := α × List Char) closeObject f
  refine ⟨f', ?_, hp'.trans hp⟩
  rw [record, hb.dropSpace_cons (by decide)]
  show settle closeObject (form.membersFrom (t.length + 1) [] start t >>= _) >>= _ = _
  rw [hmembers]
  show settle closeObject (.error f) >>= _ = _
  rw [hsettle]
  rfl

/-- A list is refused for a value of it that is, if those before are read. -/
theorem record_refuses_list {fields fields' : List String}
    (hfields : form.fields = fields ++ field :: fields') {before after : List Datum}
    (hlength : before.length = fields.length) {x : σ × Nat}
    (hbefore : ofValues m fields start before = some x) :
    Refuses (form.record start complete) (.array (before ++ v :: after)) p := by
  intro s s' r hb htext
  obtain ⟨t, rfl, hvs⟩ := htext.of_array
  have hmem : ∀ f ∈ fields, f ∈ form.fields := fun f hf => by
    rw [hfields]
    exact List.mem_append_left _ hf
  obtain ⟨f, hvalues, hp⟩ : ∃ f, form.valuesFrom true (fields ++ field :: fields') start t =
      .error f ∧ f.problem = p := valuesFrom_refuses h hv hmem hlength hbefore hvs
  obtain ⟨f', hsettle, hp'⟩ := settle_error (α := α × List Char) closeList f
  refine ⟨f', ?_, hp'.trans hp⟩
  rw [record, hb.dropSpace_cons (by decide)]
  show settle closeList (form.valuesFrom true form.fields start t >>= _) >>= _ = _
  rw [hfields, hvalues]
  show settle closeList (.error f) >>= _ = _
  rw [hsettle]
  rfl

end Fields

end RecordForm

/-- A whole text is refused for what its value is refused for. -/
theorem Refuses.whole {R : Reader α} {v : Datum} {p : Problem} (h : Refuses R v p) {text : String}
    (hv : Says text v) : ∃ f, whole R text.toList = .error f ∧ f.problem = p := by
  obtain ⟨s, r, hb, hv, -⟩ := hv
  obtain ⟨f, hf, hp⟩ := h hb hv
  refine ⟨f, ?_, hp⟩
  rw [Json.whole, hf]
  rfl

end WorkspaceAudit.Json

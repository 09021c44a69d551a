/-
WorkspaceAudit/Proofs/CommandLine/Reading.lean

Arguments ask for a run exactly if they spell settings that are accepted, none
of them twice; the run then has just these settings (`request_run_iff`).

In one direction each argument leads on and spells what is taken (`Reads`),
where a flag that waits for its value counts as not yet taken.  In the other
the settings are taken one by one, and it makes no difference that the last one
was looked at late (`all_of_settled`).
-/
import Mathlib.Data.List.TakeWhile
import WorkspaceAudit.Proofs.CommandLine.Settings
import WorkspaceAudit.Proofs.Except

namespace WorkspaceAudit

theorem Bytes.ne_nil_of_text? {b : Bytes} {s : String} (hb : b ≠ []) (h : b.text? = some s) :
    s.toList ≠ [] := by
  intro hs
  obtain rfl : s = "" := String.toList_eq_nil_iff.mp hs
  exact hb (eq_ofText_of_text? h)

/-- Bytes are shown by at least one character. -/
theorem Bytes.toList_shown_ne_nil {b : Bytes} (hb : b ≠ []) : (Bytes.shown b).toList ≠ [] := by
  rw [shown]
  split
  · next s hs => exact ne_nil_of_text? hb hs
  · obtain ⟨lead, rest, rfl⟩ := List.exists_cons_of_ne_nil hb
    rw [String.toList_ofList, replaced, List.length_cons, replaced.go]
    -- what stands for the first stretch is not empty
    split
    · next s hs =>
      have hne := ne_nil_of_text? (List.cons_ne_nil _ _) hs
      exact fun hnil => hne (List.append_eq_nil_iff.mp hnil).1
    · simp

namespace CommandLine

namespace Reading

variable {r r₁ r' : Reading} {ss : List Setting} {f : Flag}

/-! ### Kinds of arguments -/

/-- An argument is two hyphens, begins with two or with one, or is a value. -/
theorem argument_cases (a : Bytes) :
    a = [0x2D, 0x2D] ∨ (∃ body, body ≠ [] ∧ a = 0x2D :: 0x2D :: body) ∨
      (∃ b body, b ≠ 0x2D ∧ a = 0x2D :: b :: body) ∨ Bare a := by
  by_cases hbare : Bare a
  · exact .inr (.inr (.inr hbare))
  simp only [Bare, not_forall, not_not] at hbare
  obtain ⟨b, body, rfl⟩ := hbare
  by_cases hb : b = 0x2D
  · subst hb
    by_cases hbody : body = []
    · exact .inl (by rw [hbody])
    · exact .inr (.inl ⟨body, hbody, rfl⟩)
  · exact .inr (.inr (.inl ⟨b, body, hb, rfl⟩))

variable {as : List Bytes}

theorem all_hyphens_nil : r.all [[0x2D, 0x2D]] = r.settled := by
  rw [all]

theorem all_hyphens_cons (r : Reading) (b : Bytes) (as : List Bytes) :
    ∃ e, r.all ([0x2D, 0x2D] :: b :: as) = .error e := by
  rw [all]
  exact ⟨_, rfl⟩

theorem all_long {body : Bytes} (hbody : body ≠ []) :
    r.all ((0x2D :: 0x2D :: body) :: as) = r.long body >>= fun r => r.all as := by
  rw [all]
  intro h
  exact hbody h

theorem all_short {b : UInt8} (hb : b ≠ 0x2D) (body : Bytes) :
    r.all ((0x2D :: b :: body) :: as) = r.short (b :: body) >>= fun r => r.all as := by
  rw [all]
  · intro h
    cases h
    exact fun _ => hb rfl
  · exact hb

theorem all_bare {v : Bytes} (hv : Bare v) :
    r.all (v :: as) = match r.pending with
      | some (f, none) => all { r with pending := some (f, some v) } as
      | _ => .error (.mistake (.unexpected v.shown none [])) := by
  rw [all.eq_def]
  dsimp only
  split
  · exact absurd rfl (hv 0x2D [])
  · exact absurd rfl (hv 0x2D _)
  · exact absurd rfl (hv _ _)
  · rfl

/-- Two hyphens, the name of a flag and its value are read as just that. -/
theorem long_given (f : Flag) (value : Option Bytes) :
    ∃ body, body ≠ [] ∧ f.given value = 0x2D :: 0x2D :: body ∧
      ∀ r : Reading, r.long body = r.flag f value := by
  have hname : (Bytes.text? (Bytes.ofText f.name)).bind Flag.ofName? = some f := by
    rw [Bytes.text?_ofText]
    exact Flag.ofName?_eq_some_iff.mpr rfl
  have hwhole : ∀ b ∈ Bytes.ofText f.name, (b != 0x3D) = true := f.name_no_equals
  rcases value with - | v
  · refine ⟨Bytes.ofText f.name, f.bytes_ne_nil, rfl, fun r => ?_⟩
    have htake : (Bytes.ofText f.name).takeWhile (· != 0x3D) = Bytes.ofText f.name :=
      List.takeWhile_eq_self_iff.mpr hwhole
    have hdrop : (Bytes.ofText f.name).dropWhile (· != 0x3D) = [] :=
      List.dropWhile_eq_nil_iff.mpr hwhole
    simp only [long, htake, hdrop, hname]
  · refine ⟨Bytes.ofText f.name ++ 0x3D :: v, by simp, rfl, fun r => ?_⟩
    have htake : (Bytes.ofText f.name ++ 0x3D :: v).takeWhile (· != 0x3D) =
        Bytes.ofText f.name := by
      rw [List.takeWhile_append_of_pos hwhole]
      simp
    have hdrop : (Bytes.ofText f.name ++ 0x3D :: v).dropWhile (· != 0x3D) = 0x3D :: v := by
      rw [List.dropWhile_append_of_pos hwhole]
      simp
    simp only [long, htake, hdrop, hname]

/-- What is read after two hyphens is a flag, with its value if there is an equals
sign. -/
theorem given_of_long {body : Bytes} (h : r.long body = .ok r') :
    ∃ f value, 0x2D :: 0x2D :: body = f.given value ∧ r.flag f value = .ok r' := by
  have hbody := List.takeWhile_append_dropWhile (p := (· != 0x3D)) (l := body)
  have hend : ∀ b rest, body.dropWhile (· != 0x3D) = b :: rest → b = 0x3D := by
    intro b rest hrest
    have hhead := List.head?_dropWhile_not (· != 0x3D) body
    rw [hrest] at hhead
    simpa using hhead
  simp only [long] at h
  generalize body.takeWhile (· != 0x3D) = name at hbody h
  generalize body.dropWhile (· != 0x3D) = rest at hbody hend h
  rcases hf : (Bytes.text? name).bind Flag.ofName? with - | f
  · rw [hf] at h
    cases h
  rw [hf] at h
  obtain ⟨text, htext, hflag⟩ := Option.bind_eq_some_iff.mp hf
  have hname : name = Bytes.ofText f.name := by
    rw [Bytes.eq_ofText_of_text? htext, Flag.ofName?_eq_some_iff.mp hflag]
  subst hname
  rcases rest with - | ⟨b, v⟩
  · refine ⟨f, none, ?_, h⟩
    rw [Flag.given, Flag.word, ← hbody, List.append_nil]
  · obtain rfl : b = 0x3D := hend b v rfl
    refine ⟨f, some v, ?_, h⟩
    rw [Flag.given, Flag.word, ← hbody]
    rfl

/-- One hyphen before a letter never leads on. -/
theorem short_ne_ok (b : UInt8) (body : Bytes) : r.short (b :: body) ≠ .ok r' := by
  intro h
  rw [short] at h
  split at h
  · obtain ⟨_, _, h⟩ := bind_eq_ok h
    cases h
  · obtain ⟨_, _, h⟩ := bind_eq_ok h
    cases h
  · cases h
  · next hnil => exact absurd hnil (Bytes.toList_shown_ne_nil (List.cons_ne_nil b body))

/-! ### From left to right -/

/-- The arguments of what is pending. -/
def awaited (r : Reading) : List Bytes :=
  match r.pending with
  | none => []
  | some (f, value) => f.word :: value.toList

/-- What is pending is a flag that takes a value, and a value of its own. -/
def Awaits (r : Reading) : Prop :=
  ∀ f value, r.pending = some (f, value) → f.takesValue = true ∧ ∀ v ∈ value, Bare v

/-- After the settings `ss` the arguments lead on to `r'`; `more` is what is taken on
the way, and they spell it. -/
structure Reads (ss : List Setting) (r : Reading) (as : List Bytes) (r' : Reading)
    (more : List Setting) : Prop where
  awaits : r'.Awaits
  holds : r'.Holds (ss ++ more)
  spells : ∀ as' ss', Spells (r'.awaited ++ as') ss' →
    Spells (r.awaited ++ (as ++ as')) (more ++ ss')

theorem Reads.trans {as' : List Bytes} {more more' : List Setting}
    (h : Reads ss r as r₁ more) (h' : Reads (ss ++ more) r₁ as' r' more') :
    Reads ss r (as ++ as') r' (more ++ more') := by
  refine ⟨h'.awaits, by rw [← List.append_assoc]; exact h'.holds, ?_⟩
  intro rest ss' hrest
  rw [List.append_assoc, List.append_assoc]
  exact h.spells _ _ (h'.spells _ _ hrest)

theorem Awaits.of_none (h : r.pending = none) : r.Awaits := by
  intro f value hpending
  rw [h] at hpending
  cases hpending

theorem awaited_of_none (h : r.pending = none) : r.awaited = [] := by
  rw [awaited, h]

/-- One more setting, with nothing pending before or after. -/
theorem taken_reads {value : Option Bytes} (hr : r.pending = none) (hr' : r'.pending = none)
    (h : r'.Holds (ss ++ [(f, value)]))
    (hspells : ∀ as' ss', Spells as' ss' → Spells (as ++ as') ((f, value) :: ss')) :
    Reads ss r as r' [(f, value)] := by
  refine ⟨.of_none hr', h, fun as' ss' has' => ?_⟩
  rw [awaited_of_none hr'] at has'
  rw [awaited_of_none hr]
  exact hspells as' ss' has'

theorem settled_reads (h : r.Holds ss) (hr : r.Awaits) (hs : r.settled = .ok r') :
    r'.pending = none ∧ ∃ more, Reads ss r [] r' more := by
  rw [settled, settle] at hs
  rcases hpending : r.pending with - | ⟨f, value⟩
  · rw [hpending] at hs
    cases hs
    exact ⟨hpending, [], hr, by rw [List.append_nil]; exact h, fun _ _ => id⟩
  rw [hpending] at hs
  obtain ⟨hf, hvalue⟩ := hr f value hpending
  have hheld : Holds { r with pending := none } ss := ⟨h.used, h.nodup, h.accepted, h.arguments⟩
  obtain ⟨hnone, hholds⟩ := (take_eq_ok_iff hheld (.inl hf)).mp (mapError_eq_ok_iff.mp hs)
  refine ⟨hnone, [(f, value)], .of_none hnone, hholds, fun as' ss' has' => ?_⟩
  rw [awaited_of_none hnone] at has'
  rw [awaited, hpending]
  rcases value with - | v
  · -- a flag that waits in vain is not accepted
    have hquiet : f = .quiet := hholds.accepted (f, none) (by simp)
    rw [hquiet] at hf
    cases hf
  · exact .apart hf (hvalue v rfl) has'

theorem flag_reads (h : r.Holds ss) (hr : r.Awaits) {value : Option Bytes}
    (hs : r.flag f value = .ok r') : ∃ more, Reads ss r [f.given value] r' more := by
  unfold flag at hs
  split at hs
  · -- a value after an equals sign
    next v hf =>
    obtain ⟨r₁, hset, hs⟩ := bind_eq_ok hs
    obtain ⟨hnone, more, hreads⟩ := settled_reads h hr hset
    obtain ⟨hnone', hholds⟩ :=
      (take_eq_ok_iff hreads.holds (.inl hf)).mp (mapError_eq_ok_iff.mp hs)
    exact ⟨_, hreads.trans (taken_reads hnone hnone' hholds fun _ _ => .joined hf)⟩
  · -- a flag that waits for its value
    next hf =>
    obtain ⟨r₁, hset, hs⟩ := bind_eq_ok hs
    cases hs
    obtain ⟨hnone, more, hreads⟩ := settled_reads h hr hset
    have hheld := hreads.holds
    have hwaits : Reads (ss ++ more) r₁ [f.word] { r₁ with pending := some (f, none) } [] := by
      refine ⟨?_, ?_, fun as' ss' has' => ?_⟩
      · intro g value hpending
        cases hpending
        exact ⟨hf, fun v hv => by cases hv⟩
      · rw [List.append_nil]
        exact ⟨hheld.used, hheld.nodup, hheld.accepted, hheld.arguments⟩
      · rw [awaited_of_none hnone]
        exact has'
    exact ⟨_, hreads.trans hwaits⟩
  · cases hs
  · -- a switch
    next hf =>
    obtain ⟨r₁, hset, hs⟩ := bind_eq_ok hs
    obtain ⟨hnone, more, hreads⟩ := settled_reads h hr hset
    have hquiet : f = .quiet := by
      cases f <;> cases hf
      · rfl
      · cases hs
      · cases hs
    subst hquiet
    obtain ⟨hnone', hholds⟩ :=
      (take_eq_ok_iff hreads.holds (.inr ⟨rfl, rfl⟩)).mp (mapError_eq_ok_iff.mp hs)
    exact ⟨_, hreads.trans (taken_reads hnone hnone' hholds fun _ _ => .switch hf)⟩

/-- What is read is spelled. -/
theorem all_reads (as : List Bytes) (h : r.Holds ss) (hr : r.Awaits) (hs : r.all as = .ok r') :
    ∃ more, r'.Holds (ss ++ more) ∧ Spells (r.awaited ++ as) more := by
  induction as generalizing r ss with
  | nil =>
    obtain ⟨hnone, more, hreads⟩ := settled_reads h hr (by rw [all] at hs; exact hs)
    have hspells := hreads.spells [] [] (by rw [awaited_of_none hnone]; exact .nil)
    exact ⟨more, hreads.holds, by simpa using hspells⟩
  | cons a as ih =>
    rcases argument_cases a with rfl | ⟨body, hbody, rfl⟩ | ⟨b, body, hb, rfl⟩ | hbare
    · -- two hyphens end the line
      rcases as with - | ⟨b, as⟩
      · rw [all_hyphens_nil] at hs
        obtain ⟨hnone, more, hreads⟩ := settled_reads h hr hs
        have hspells := hreads.spells [[0x2D, 0x2D]] []
          (by rw [awaited_of_none hnone]; exact .hyphens)
        exact ⟨more, hreads.holds, by simpa using hspells⟩
      · obtain ⟨e, he⟩ := r.all_hyphens_cons b as
        rw [he] at hs
        cases hs
    · rw [all_long hbody] at hs
      obtain ⟨r₁, hlong, hs⟩ := bind_eq_ok hs
      obtain ⟨f, value, hgiven, hflag⟩ := given_of_long hlong
      obtain ⟨more, hreads⟩ := flag_reads h hr hflag
      obtain ⟨more', hholds, hspells⟩ := ih hreads.holds hreads.awaits hs
      refine ⟨more ++ more', by rw [← List.append_assoc]; exact hholds, ?_⟩
      rw [hgiven]
      exact hreads.spells as more' hspells
    · rw [all_short hb] at hs
      obtain ⟨r₁, hshort, -⟩ := bind_eq_ok hs
      exact absurd hshort (short_ne_ok b body)
    · -- a value of its own waits with its flag
      rw [all_bare hbare] at hs
      rcases hpending : r.pending with - | ⟨f, - | v⟩ <;> rw [hpending] at hs
      · cases hs
      · obtain ⟨hf, -⟩ := hr f none hpending
        have hawaits : Awaits { r with pending := some (f, some a) } := by
          intro g value heq
          cases heq
          exact ⟨hf, fun v hv => by cases hv; exact hbare⟩
        obtain ⟨more, hholds, hspells⟩ :=
          ih (r := { r with pending := some (f, some a) })
            ⟨h.used, h.nodup, h.accepted, h.arguments⟩ hawaits hs
        refine ⟨more, hholds, ?_⟩
        rw [awaited, hpending]
        exact hspells
      · cases hs

/-! ### Setting by setting -/

theorem all_given {value : Option Bytes} (h : r.flag f value = .ok r₁) :
    r.all (f.given value :: as) = r₁.all as := by
  obtain ⟨body, hbody, hgiven, hlong⟩ := long_given f value
  rw [hgiven, all_long hbody, hlong, h]
  rfl

theorem flag_of_settled {value : Option Bytes} (hset : r.settled = .ok r₁)
    (hset' : r₁.settled = .ok r₁) (h : r₁.flag f value = .ok r') : r.flag f value = .ok r' := by
  unfold flag at h ⊢
  split at h
  · rw [hset'] at h
    rw [hset]
    exact h
  · rw [hset'] at h
    rw [hset]
    exact h
  · cases h
  · rw [hset'] at h
    rw [hset]
    exact h

theorem settled_of_none (h : r.pending = none) : r.settled = .ok r := by
  rw [settled, settle, h]
  rfl

/-- It makes no difference that what is pending is looked at with the next argument. -/
theorem all_of_settled (hset : r.settled = .ok r₁) (hnone : r₁.pending = none)
    (h : r₁.all as = .ok r') : r.all as = .ok r' := by
  have hset' := settled_of_none hnone
  rcases as with - | ⟨a, as⟩
  · rw [all, hset'] at h
    rw [all, hset, h]
  rcases argument_cases a with rfl | ⟨body, hbody, rfl⟩ | ⟨b, body, hb, rfl⟩ | hbare
  · rcases as with - | ⟨b, as⟩
    · rw [all_hyphens_nil, hset'] at h
      rw [all_hyphens_nil, hset, h]
    · obtain ⟨e, he⟩ := r₁.all_hyphens_cons b as
      rw [he] at h
      cases h
  · rw [all_long hbody] at h
    obtain ⟨r₂, hlong, h⟩ := bind_eq_ok h
    obtain ⟨f, value, hgiven, hflag⟩ := given_of_long hlong
    rw [hgiven, all_given (flag_of_settled hset hset' hflag)]
    exact h
  · rw [all_short hb] at h
    obtain ⟨r₂, hshort, -⟩ := bind_eq_ok h
    exact absurd hshort (short_ne_ok b body)
  · rw [all_bare hbare, hnone] at h
    cases h

/-- What is spelled from here on is read, if it is accepted and no flag comes twice. -/
def Completes (as : List Bytes) (more : List Setting) : Prop :=
  ∀ {r : Reading} {ss : List Setting}, r.Holds ss → r.pending = none →
    ((ss ++ more).map Prod.fst).Nodup → (∀ s ∈ more, Setting.Accepted s) →
      ∃ r', r.all as = .ok r' ∧ r'.Holds (ss ++ more)

/-- One more setting, of which the next arguments make what it is taken to. -/
theorem Completes.cons {as' : List Bytes} {value : Option Bytes} {more : List Setting}
    (hrest : Completes as more)
    (hstep : ∀ {r r₁ r' : Reading}, r.settled = .ok r →
      Setting.Accepted (f, value) → (r.take f value).2 = .ok r₁ → r₁.pending = none →
      r₁.all as = .ok r' → r.all as' = .ok r') :
    Completes as' ((f, value) :: more) := by
  intro r ss h hnone hnodup haccepted
  have hfirst : Setting.Accepted (f, value) := haccepted _ List.mem_cons_self
  have hf : f.takesValue = true ∨ f = .quiet ∧ value = none := by
    rcases value with - | v
    · exact .inr ⟨hfirst, rfl⟩
    · exact .inl hfirst.1
  have hholds : Holds ⟨.ofSettings (ss ++ [(f, value)]), r.used ++ [f], none⟩
      (ss ++ [(f, value)]) :=
    (holds_concat_iff h).mpr ⟨not_mem_before_of_nodup hnodup, hfirst, rfl, rfl⟩
  have htake := (take_eq_ok_iff h hf).mpr ⟨rfl, hholds⟩
  obtain ⟨r', hall, hholds'⟩ := hrest hholds rfl (by rw [List.append_assoc]; exact hnodup)
    fun s hs => haccepted s (List.mem_cons_of_mem _ hs)
  rw [List.append_assoc] at hholds'
  exact ⟨r', hstep (settled_of_none hnone) hfirst htake rfl hall, hholds'⟩

theorem completes {more : List Setting} (hs : Spells as more) : Completes as more := by
  induction hs with
  | nil =>
    intro r ss h hnone _ _
    exact ⟨r, by rw [all, settled_of_none hnone], by rw [List.append_nil]; exact h⟩
  | hyphens =>
    intro r ss h hnone _ _
    exact ⟨r, by rw [all_hyphens_nil, settled_of_none hnone], by rw [List.append_nil]; exact h⟩
  | @switch f as ss hf hs ih =>
    refine ih.cons fun {r r₁ r'} hset haccepted htake _ hall => ?_
    have hquiet : f = .quiet := haccepted
    subst hquiet
    have hflag : r.flag .quiet none = .ok r₁ := by
      show r.settled >>= _ = _
      rw [hset]
      exact mapError_eq_ok_iff.mpr htake
    exact (all_given hflag).trans hall
  | @joined f v as ss hf hs ih =>
    refine ih.cons fun {r r₁ r'} hset _ htake _ hall => ?_
    have hflag : r.flag f (some v) = .ok r₁ := by
      simp only [flag, hf, hset]
      exact mapError_eq_ok_iff.mpr htake
    exact (all_given hflag).trans hall
  | @apart f v as ss hf hv hs ih =>
    -- the flag waits, and then its value
    refine ih.cons fun {r r₁ r'} hset _ htake hnone hall => ?_
    have hflag : r.flag f none = .ok { r with pending := some (f, none) } := by
      simp only [flag, hf, hset]
      rfl
    refine (all_given hflag).trans ?_
    rw [all_bare hv]
    refine all_of_settled ?_ hnone hall
    rw [settled, settle]
    exact mapError_eq_ok_iff.mpr htake

/-! ### Stops -/

/-- A stop is a mistake, or a request that is no run. -/
def Runless (x : Except Stop Reading) : Prop :=
  ∀ a, x ≠ .error (.request (.run a))

theorem Runless.bind {x : Except Stop Reading} {k : Reading → Except Stop Reading}
    (hx : Runless x) (hk : ∀ r, Runless (k r)) : Runless (x >>= k) := by
  rcases x with e | r
  · exact hx
  · exact hk r

theorem runless_mapError (x : Except UsageError Reading) : Runless (x.mapError .mistake) := by
  rcases x with e | r <;> exact fun _ h => by cases h

theorem runless_long (r : Reading) (body : Bytes) : Runless (r.long body) := by
  have hflag : ∀ f value, Runless (r.flag f value) := by
    intro f value
    unfold flag
    split
    · exact (runless_mapError _).bind fun _ => runless_mapError _
    · exact (runless_mapError _).bind fun _ _ h => by cases h
    · exact fun _ h => by cases h
    · refine (runless_mapError _).bind fun _ => ?_
      split
      · exact fun _ h => by cases h
      · exact fun _ h => by cases h
      · exact runless_mapError _
  unfold long
  dsimp only
  split
  · exact hflag _ _
  · exact fun _ h => by cases h

theorem runless_short (r : Reading) (body : Bytes) : Runless (r.short body) := by
  unfold short
  split
  · exact (runless_mapError _).bind fun _ _ h => by cases h
  · exact (runless_mapError _).bind fun _ _ h => by cases h
  · exact fun _ h => by cases h
  · exact fun _ h => by cases h

theorem runless_all (r : Reading) (as : List Bytes) : Runless (r.all as) := by
  induction as generalizing r with
  | nil =>
    rw [all]
    exact runless_mapError _
  | cons a as ih =>
    rcases argument_cases a with rfl | ⟨body, hbody, rfl⟩ | ⟨b, body, hb, rfl⟩ | hbare
    · rcases as with - | ⟨b, as⟩
      · rw [all_hyphens_nil]
        exact runless_mapError _
      · rw [all]
        exact fun _ h => by cases h
    · rw [all_long hbody]
      exact (runless_long r body).bind ih
    · rw [all_short hb]
      exact (runless_short r _).bind ih
    · rw [all_bare hbare]
      split
      · exact ih _
      · exact fun _ h => by cases h

end Reading

/-! ### Requests -/

/-- **Arguments ask for a run exactly if they spell settings that are accepted, none
of them twice; the run has just these settings.** -/
theorem request_run_iff {as : List Bytes} {a : Arguments} :
    request as = .ok (.run a) ↔
      ∃ ss, Spells as ss ∧ (ss.map Prod.fst).Nodup ∧ (∀ s ∈ ss, Setting.Accepted s) ∧
        a = .ofSettings ss := by
  have hstart : Reading.Holds ⟨.none, [], none⟩ [] :=
    ⟨rfl, List.nodup_nil, fun _ hs => by simp at hs, rfl⟩
  constructor
  · intro h
    rw [request] at h
    split at h
    · next r hr =>
      cases h
      obtain ⟨ss, hholds, hspells⟩ := Reading.all_reads as hstart (.of_none rfl) hr
      exact ⟨ss, hspells, hholds.nodup, hholds.accepted, hholds.arguments⟩
    · next hr =>
      cases h
      exact absurd hr (Reading.runless_all _ as _)
    · cases h
  · rintro ⟨ss, hspells, hnodup, haccepted, rfl⟩
    obtain ⟨r, hall, hholds⟩ := Reading.completes hspells hstart rfl hnodup haccepted
    rw [request, hall]
    show Except.ok (Request.run r.arguments) = _
    rw [hholds.arguments, List.nil_append]

end CommandLine

end WorkspaceAudit

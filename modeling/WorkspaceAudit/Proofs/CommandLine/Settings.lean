/-
WorkspaceAudit/Proofs/CommandLine/Settings.lean

What arguments spell.

`Spells as ss` is the grammar of arguments: they spell the settings `ss`, in
this order.  A value stands after an equals sign or as an argument of its own,
and two hyphens alone may end the line.  `Arguments.ofSettings` has the values
of the settings and, where there are none, the defaults.

One setting is taken exactly if it is accepted and the first of its flag
(`take_eq_ok_iff`); `Holds` is the invariant that says what was taken before.
-/
import WorkspaceAudit.CommandLine.Arguments
import WorkspaceAudit.Proofs.Lookup

namespace WorkspaceAudit.CommandLine

/-! ### Settings -/

/-- A flag with the value it is given, if any. -/
abbrev Setting := Flag × Option Bytes

/-- The flag as an argument. -/
def Flag.word (f : Flag) : Bytes := 0x2D :: 0x2D :: Bytes.ofText f.name

/-- The flag as an argument, with its value after an equals sign if it has one. -/
def Flag.given (f : Flag) : Option Bytes → Bytes
  | none => f.word
  | some v => f.word ++ 0x3D :: v

/-- An argument that may be a value: no hyphen stands before other bytes. -/
def Bare (v : Bytes) : Prop := ∀ b body, v ≠ 0x2D :: b :: body

/-- The arguments spell these settings. -/
inductive Spells : List Bytes → List Setting → Prop
  | nil : Spells [] []
  | hyphens : Spells [[0x2D, 0x2D]] []
  | switch {f : Flag} {as : List Bytes} {ss : List Setting} : f.takesValue = false →
      Spells as ss → Spells (f.word :: as) ((f, none) :: ss)
  | joined {f : Flag} {v : Bytes} {as : List Bytes} {ss : List Setting} : f.takesValue = true →
      Spells as ss → Spells ((f.word ++ 0x3D :: v) :: as) ((f, some v) :: ss)
  | apart {f : Flag} {v : Bytes} {as : List Bytes} {ss : List Setting} : f.takesValue = true →
      Bare v → Spells as ss → Spells (f.word :: v :: as) ((f, some v) :: ss)

/-- The threshold of a name in bytes. -/
def level? (v : Bytes) : Option Log.Threshold :=
  v.text?.bind Log.Threshold.ofName?

/-- Settings that a run takes: it may be quiet, a level has a name that there is,
and any other value is not empty. -/
def Setting.Accepted : Setting → Prop
  | (f, none) => f = .quiet
  | (f, some v) => f.takesValue = true ∧ if f = .logLevel then (level? v).isSome else v ≠ []

/-- The value that a flag is given. -/
def value? (ss : List Setting) (f : Flag) : Option Bytes :=
  (ss.lookup f).join

/-- The arguments of a run with these settings. -/
def Arguments.ofSettings (ss : List Setting) : Arguments where
  config := value? ss .config
  root := value? ss .root
  sourceDir := value? ss .sourceDir
  report := value? ss .report
  json := value? ss .json
  quiet := (ss.lookup .quiet).isSome
  logLevel := ((value? ss .logLevel).bind level?).getD Arguments.none.logLevel
  logFile := (value? ss .logFile).getD Arguments.none.logFile

section Fresh

variable {ss : List Setting} {f : Flag} (hf : f ∉ ss.map Prod.fst)
include hf

theorem lookup_fresh (value : Option Bytes) (g : Flag) :
    (ss ++ [(f, value)]).lookup g = if g = f then some value else ss.lookup g := by
  rw [List.lookup_append]
  by_cases hg : g = f
  · subst hg
    rw [lookup_eq_none_iff.mpr hf, lookup_cons_eq, if_pos rfl, if_pos rfl, Option.none_or]
  · rw [lookup_cons_eq, if_neg hg, if_neg hg, List.lookup_nil, Option.or_none]

theorem value?_fresh (value : Option Bytes) (g : Flag) :
    value? (ss ++ [(f, value)]) g = if g = f then value else value? ss g := by
  rw [value?, lookup_fresh hf]
  split <;> rfl

end Fresh

namespace Flag

theorem ofName?_eq_some_iff {n : String} {f : Flag} : ofName? n = some f ↔ f.name = n := by
  constructor
  · intro h
    simpa using List.find?_some h
  · rintro rfl
    cases f <;> decide

theorem name_no_equals (f : Flag) : ∀ b ∈ Bytes.ofText f.name, (b != 0x3D) = true := by
  apply List.all_eq_true.mp
  cases f <;> decide

theorem bytes_ne_nil (f : Flag) : Bytes.ofText f.name ≠ [] := by
  cases f <;> decide

end Flag

/-! ### Taking a setting -/

namespace Reading

/-- What was taken so far are these settings. -/
structure Holds (r : Reading) (ss : List Setting) : Prop where
  used : r.used = ss.map Prod.fst
  nodup : (ss.map Prod.fst).Nodup
  accepted : ∀ s ∈ ss, Setting.Accepted s
  arguments : r.arguments = .ofSettings ss

variable {r r₁ r' : Reading} {ss : List Setting} {f : Flag}

theorem accept_eq_ok_iff (hf : f ∉ ss.map Prod.fst) (hvalue : f.takesValue = true) {v : Bytes}
    {a : Arguments} :
    accept (.ofSettings ss) f v = .ok a ↔
      Setting.Accepted (f, some v) ∧ a = .ofSettings (ss ++ [(f, some v)]) := by
  have hlookup := lookup_fresh hf (some v)
  have hgiven := value?_fresh hf (some v)
  by_cases hlevel : f = .logLevel
  · subst hlevel
    have hset : ∀ t, level? v = some t → { Arguments.ofSettings ss with logLevel := t } =
        .ofSettings (ss ++ [(.logLevel, some v)]) := by
      intro t ht
      simp [Arguments.ofSettings, hlookup, hgiven, ht]
    rw [accept, if_pos rfl, Setting.Accepted, level?]
    rcases hv : v.text? with - | name
    · simp
    · dsimp only
      rcases hname : Log.Threshold.ofName? name with - | t
      · simp [hname]
      · have hnamed : level? v = some t := by rw [level?, hv]; exact hname
        simp [hname, ← hset t hnamed, Flag.takesValue, eq_comm]
  · have hset : (Arguments.ofSettings ss).setPath v f = .ofSettings (ss ++ [(f, some v)]) := by
      cases f <;> simp_all [Arguments.ofSettings, Arguments.setPath, Flag.takesValue]
    rw [accept, if_neg hlevel, Setting.Accepted, if_neg hlevel]
    cases v <;> simp [hset, hvalue, eq_comm]

theorem holds_concat_iff (h : r.Holds ss) {value : Option Bytes} :
    r'.Holds (ss ++ [(f, value)]) ↔
      f ∉ ss.map Prod.fst ∧ Setting.Accepted (f, value) ∧ r'.used = r.used ++ [f] ∧
        r'.arguments = .ofSettings (ss ++ [(f, value)]) := by
  constructor
  · intro h'
    have hnodup := h'.nodup
    have hused := h'.used
    rw [List.map_append, List.map_singleton] at hnodup hused
    rw [h.used]
    refine ⟨fun hf => ?_, h'.accepted _ (by simp), hused, h'.arguments⟩
    exact (List.nodup_append.mp hnodup).2.2 f hf f (List.mem_singleton.mpr rfl) rfl
  · rintro ⟨hf, haccepted, hused, harguments⟩
    refine ⟨?_, ?_, ?_, harguments⟩
    · rw [hused, h.used, List.map_append, List.map_singleton]
    · rw [List.map_append, List.map_singleton, List.nodup_append]
      refine ⟨h.nodup, List.nodup_singleton f, fun g hg g' hg' heq => ?_⟩
      rw [heq, List.mem_singleton.mp hg'] at hg
      exact hf hg
    · intro s hs
      rcases List.mem_append.mp hs with hs | hs
      · exact h.accepted s hs
      · rw [List.mem_singleton.mp hs]
        exact haccepted

theorem take_missing (hf : f.takesValue = true) :
    (r.take f none).2 = .error (.valueMissing f) := by
  unfold take
  rw [hf]

theorem take_repeated (hf : f ∈ r.used) (value : Option Bytes) :
    ∃ e, (r.take f value).2 = .error e := by
  unfold take
  split
  · exact ⟨_, rfl⟩
  · rw [if_pos (List.contains_iff_mem.mpr hf)]
    exact ⟨_, rfl⟩

theorem take_quiet (hf : .quiet ∉ r.used) :
    (r.take .quiet none).2 =
      .ok ⟨{ r.arguments with quiet := true }, r.used ++ [.quiet], none⟩ := by
  have hcontains : ¬ r.used.contains .quiet = true := mt List.contains_iff_mem.mp hf
  simp only [take, Flag.takesValue, if_neg hcontains, Except.map]

theorem take_some (hf : f ∉ r.used) (v : Bytes) :
    (r.take f (some v)).2 =
      (accept r.arguments f v).map fun a => ⟨a, r.used ++ [f], none⟩ := by
  have hcontains : ¬ r.used.contains f = true := mt List.contains_iff_mem.mp hf
  unfold take
  split
  · next hnone => cases hnone
  · rw [if_neg hcontains]

/-- A setting is taken exactly if it is accepted and the first of its flag. -/
theorem take_eq_ok_iff (h : r.Holds ss) {value : Option Bytes}
    (hf : f.takesValue = true ∨ f = .quiet ∧ value = none) :
    (r.take f value).2 = .ok r' ↔ r'.pending = none ∧ r'.Holds (ss ++ [(f, value)]) := by
  have hused : f ∈ r.used ↔ f ∈ ss.map Prod.fst := by rw [h.used]
  have htaken : ∀ {a : Arguments}, (⟨a, r.used ++ [f], none⟩ : Reading) = r' ↔
      r'.pending = none ∧ r'.used = r.used ++ [f] ∧ r'.arguments = a := by
    intro a
    obtain ⟨arguments, used, pending⟩ := r'
    constructor
    · intro heq
      cases heq
      exact ⟨rfl, rfl, rfl⟩
    · rintro ⟨rfl, rfl, rfl⟩
      rfl
  rw [holds_concat_iff h]
  by_cases hmem : f ∈ r.used
  · -- a flag that was used is refused, with a value or without
    obtain ⟨e, he⟩ := take_repeated hmem value
    rw [he]
    simp [hused.mp hmem]
  have hnew : f ∉ ss.map Prod.fst := mt hused.mpr hmem
  rcases value with - | v
  · rcases hf with hf | ⟨rfl, -⟩
    · have hne : f ≠ .quiet := by rintro rfl; cases hf
      rw [take_missing hf]
      simp [Setting.Accepted, hne]
    · have hquiet : { r.arguments with quiet := true } = .ofSettings (ss ++ [(.quiet, none)]) := by
        rw [h.arguments]
        simp [Arguments.ofSettings, lookup_fresh hnew, value?_fresh hnew]
      rw [take_quiet hmem, hquiet, Except.ok.injEq, htaken]
      simp [Setting.Accepted, hnew]
  · have hvalue : f.takesValue = true := by
      rcases hf with hf | ⟨-, hf⟩
      · exact hf
      · cases hf
    have haccept := fun a => accept_eq_ok_iff (a := a) hnew hvalue (v := v)
    rw [take_some hmem, h.arguments]
    rcases hr : accept (.ofSettings ss) f v with e | a
    · have hno : ¬ Setting.Accepted (f, some v) := by
        intro haccepted
        have hok := (haccept _).mpr ⟨haccepted, rfl⟩
        rw [hr] at hok
        cases hok
      simp [Except.map, hno]
    · obtain ⟨haccepted, rfl⟩ := (haccept a).mp hr
      rw [Except.map, Except.ok.injEq, htaken]
      simp [hnew, haccepted]

end Reading

end WorkspaceAudit.CommandLine

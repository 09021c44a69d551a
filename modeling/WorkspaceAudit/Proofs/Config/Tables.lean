/-
WorkspaceAudit/Proofs/Config/Tables.lean

Tables of expectations, wherever they come from.

A table is built from a list of entries, read from a JSON list of them, or read as
part of a configuration (`Config.HasTable`).  In all three ways the same lists are
accepted, with the same table; and a list with a repeated name is refused for the
first entry that repeats one, which is what the message names
(`Expectations.built_distinct_in_order`).
-/
import WorkspaceAudit.Proofs.Config.RoundTrip
import WorkspaceAudit.Proofs.Expectation
import WorkspaceAudit.Proofs.Json.Refusals

namespace WorkspaceAudit

open Json

/-! ### Tables alone -/

/-- The message that a name is repeated starts with that; the place may follow. -/
theorem message_repeatedName (text : List Char) {f : Fault} {m : String}
    (hf : f.problem = .repeatedName m) : ∃ place, f.message text = m ++ place := by
  rw [Fault.message, hf]
  dsimp only [Problem.text]
  split
  · simp only [String.append_assoc]
    exact ⟨_, rfl⟩
  · exact ⟨"", String.append_empty.symm⟩

namespace Expectations

variable {es : List Expectation} {vs : List Datum}

theorem ofDatum?_array (hes : List.Forall₂ Expectation.Written es vs) :
    Expectations.ofDatum? (.array vs) = (ofEntries? es).toOption := by
  rw [Expectations.ofDatum?, mapM_eq_some_iff.mpr hes, Option.bind_some]

/-- Entries that are no table are read, and then refused for their repeated name. -/
theorem reader_refuses (hes : List.Forall₂ Expectation.Written es vs) {n : String}
    (h : ofEntries? es = .error n) :
    Refuses Expectations.reader (.array vs) (.repeatedName (repeatedMessage n)) := by
  intro s s' r hb hv
  obtain ⟨t, rfl, hvs⟩ := hv.of_array
  have hitems := items_complete Expectation.reader_readsAs hvs
  rw [mapM_eq_some_iff.mpr hes] at hitems
  refine ⟨.unsettled r (.repeatedName (repeatedMessage n)), ?_, rfl⟩
  rw [Expectations.reader, hb.dropSpace_cons (by decide)]
  show items Expectation.reader t >>= _ = _
  rw [hitems.eq_ok]
  dsimp only [bind, Except.bind]
  rw [h]

/-- A text of a list of entries is the table that these are. -/
theorem ofJson_eq_ok_iff {text : String} (h : Says text (.array vs))
    (hes : List.Forall₂ Expectation.Written es vs) {t : Expectations} :
    ofJson text = .ok t ↔ ofEntries? es = .ok t := by
  rw [ofJson, mapError_eq_ok_iff, whole_eq_ok_iff reader_readsAs h, ofDatum?_array hes,
    toOption_eq_some_iff]

theorem ofJson_refused {text : String} (h : Says text (.array vs))
    (hes : List.Forall₂ Expectation.Written es vs) {n : String} (hn : ofEntries? es = .error n) :
    ∃ place, ofJson text = .error (repeatedMessage n ++ place) := by
  obtain ⟨f, hf, hp⟩ := (reader_refuses hes hn).whole h
  obtain ⟨place, hplace⟩ := message_repeatedName text.toList hp
  refine ⟨place, ?_⟩
  rw [ofJson, hf, ← hplace]
  rfl

theorem ofJson_written {text : String} {t : Expectations}
    (h : Says text (Config.expectationsJson t).toDatum) : ofJson text = .ok t := by
  rw [ofJson, mapError_eq_ok_iff, whole_eq_ok_iff reader_readsAs h, ofDatum?_eq_some_iff]
  exact Config.written_expectationsJson t

end Expectations

/-! ### Tables in configurations -/

namespace Config

/-- The value stands where a configuration has its table, in either form, and all
else is accepted. -/
inductive HasTable (w : Datum) : Datum → Prop
  | member {before after : List (String × Datum)} : Accepted (.object (before ++ after)) →
      "expectations" ∉ (before ++ after).map Prod.fst →
      HasTable w (.object (before ++ ("expectations", w) :: after))
  | value {vs : List Datum} : vs.length = 6 → Accepted (.array vs) → HasTable w (.array (vs ++ [w]))

/-- The fields before the table. -/
def plainFields : List String :=
  ["root", "source_dir", "source_pattern", "manifest_name", "report_file", "json_report"]

theorem fieldNames_eq : fieldNames = plainFields ++ ["expectations"] :=
  rfl

theorem zip_fieldNames {vs : List Datum} (h : vs.length = 6) (us : List Datum) :
    fieldNames.zip (vs ++ us) = plainFields.zip vs ++ ["expectations"].zip us := by
  have hplain : plainFields.length = vs.length := h.symm
  rw [fieldNames_eq, List.zip_append hplain]

theorem zip_plainFields {vs : List Datum} (h : vs.length = 6) :
    fieldNames.zip vs = plainFields.zip vs := by
  have hzip := zip_fieldNames h []
  rwa [List.append_nil, List.zip_nil_right, List.append_nil] at hzip

theorem length_le {vs : List Datum} (h : vs.length = 6) (w : Datum) :
    (vs ++ [w]).length ≤ fieldNames.length := by
  rw [List.length_append, h]
  exact Nat.le_refl 7

/-- Other fields leave the table as it is. -/
theorem ofField_expectations {field : String} (hf : field ∈ form.fields)
    (hne : field ≠ "expectations") {c c' : Config} {v : Datum} (h : ofField field c v = some c') :
    c'.expectations = c.expectations := by
  rcases hf with _ | ⟨_, _ | ⟨_, _ | ⟨_, _ | ⟨_, _ | ⟨_, _ | ⟨_, _ | ⟨_, hf⟩⟩⟩⟩⟩⟩⟩
  case tail.tail.tail.tail.tail.tail.head => exact absurd rfl hne
  case tail.tail.tail.tail.tail.tail.tail => cases hf
  all_goals
    obtain ⟨x, -, rfl⟩ := Option.map_eq_some_iff.mp h
    rfl

theorem ofMembers_expectations {seen : List String} {c c' : Config} {ms : List (String × Datum)}
    (hnone : "expectations" ∉ ms.map Prod.fst) (h : form.ofMembers ofField seen c ms = some c') :
    c'.expectations = c.expectations := by
  induction ms generalizing seen c with
  | nil =>
    cases h
    rfl
  | cons e ms ih =>
    obtain ⟨key, v⟩ := e
    rw [List.map_cons, List.mem_cons, not_or] at hnone
    rw [RecordForm.ofMembers] at h
    split at h
    · next hkey =>
      obtain ⟨c₁, hc₁, h⟩ := Option.bind_eq_some_iff.mp h
      rw [ih hnone.2 h, ofField_expectations hkey.1 (Ne.symm hnone.1) hc₁]
    · cases h

/-- The table of a configuration is the one that was read for it. -/
theorem ofDatum?_table {w : Datum} {before after : List (String × Datum)} {c : Config}
    (hnone : "expectations" ∉ after.map Prod.fst)
    (h : ofDatum? (.object (before ++ ("expectations", w) :: after)) = some c) :
    Expectations.ofDatum? w = some c.expectations := by
  rw [ofDatum?_object, RecordForm.ofMembers_append] at h
  obtain ⟨c₁, -, h⟩ := Option.bind_eq_some_iff.mp h
  rw [RecordForm.ofMembers] at h
  split at h
  · obtain ⟨c₂, hc₂, h⟩ := Option.bind_eq_some_iff.mp h
    obtain ⟨t, ht, rfl⟩ := Option.map_eq_some_iff.mp hc₂
    rw [ht, ofMembers_expectations hnone h]
  · cases h

namespace HasTable

variable {w v : Datum} (h : HasTable w v)
include h

/-- With a table that fits, the whole value is accepted. -/
theorem accepted (hw : Fits "expectations" w) : Accepted v := by
  cases h with
  | @member before after hothers hnone =>
    cases hothers with
    | object hfits hnodup =>
      have hperm : (before ++ ("expectations", w) :: after).Perm
          (("expectations", w) :: (before ++ after)) := List.perm_middle
      refine .object (fun m hm => ?_) ?_
      · rcases List.mem_cons.mp (hperm.mem_iff.mp hm) with rfl | hm
        · exact ⟨(by decide : "expectations" ∈ fieldNames), hw⟩
        · exact hfits m hm
      · rw [(hperm.map Prod.fst).nodup_iff, List.map_cons]
        exact List.nodup_cons.mpr ⟨hnone, hnodup⟩
  | @value vs hlength hothers =>
    cases hothers with
    | array _ hfits =>
      rw [zip_plainFields hlength] at hfits
      refine .array (length_le hlength w) fun m hm => ?_
      rw [zip_fieldNames hlength, List.mem_append] at hm
      rcases hm with hm | hm
      · exact hfits m hm
      · rw [List.mem_singleton.mp hm]
        exact hw

/-- The table of the configuration is what its value says. -/
theorem expectations_eq {c : Config} (hc : ofDatum? v = some c) :
    Expectations.ofDatum? w = some c.expectations := by
  cases h with
  | member _ hnone =>
    rw [List.map_append, List.mem_append, not_or] at hnone
    exact ofDatum?_table hnone.2 hc
  | @value vs hlength _ =>
    rw [← ofDatum?_zip (length_le hlength w), zip_fieldNames hlength] at hc
    exact ofDatum?_table (by simp) hc

/-- A configuration is refused for its table, if nothing else is wrong with it. -/
theorem refuses {p : Problem} (hw : Refuses Expectations.reader w p) : Refuses reader v p := by
  have hfield : ∀ c, Refuses (form.read "expectations" c) w p := by
    intro c
    have htable := hw.map fun t => ({ c with expectations := t } : Config)
    exact htable
  cases h with
  | @member before after hothers hnone =>
    cases hothers with
    | object hfits hnodup =>
      rw [List.map_append] at hnone hnodup
      have hbefore : (form.ofMembers ofField [] initial before).isSome := by
        rw [RecordForm.ofMembers_isSome_iff fun _ => ofField_isSome_iff]
        refine ⟨fun m hm => ?_, hnodup.of_append_left⟩
        obtain ⟨hf, hfit⟩ := hfits m (List.mem_append_left _ hm)
        exact ⟨hf, List.not_mem_nil, hfit⟩
      obtain ⟨c, hc⟩ := Option.isSome_iff_exists.mp hbefore
      exact RecordForm.record_refuses_object readsFields hfield initial _ (by decide) hc
        fun hmem => hnone (List.mem_append_left _ hmem)
  | @value vs hlength hothers =>
    cases hothers with
    | array _ hfits =>
      have hbefore : (RecordForm.ofValues ofField plainFields initial vs).isSome := by
        rw [RecordForm.ofValues_isSome_iff (fun _ => ofField_isSome_iff) (by decide)]
        rw [zip_plainFields hlength] at hfits
        exact ⟨Nat.le_of_eq hlength, hfits⟩
      obtain ⟨x, hx⟩ := Option.isSome_iff_exists.mp hbefore
      exact RecordForm.record_refuses_list readsFields hfield initial _ fieldNames_eq hlength hx

end HasTable

/-- The text of a configuration has the table that its list of entries is. -/
theorem ofText_table_iff {es : List Expectation} {vs : List Datum} {v : Datum} {text : String}
    {origin : Path} (htext : Says text v) (h : HasTable (.array vs) v)
    (hes : List.Forall₂ Expectation.Written es vs) {t : Expectations} :
    (∃ c, ofText text origin = .ok c ∧ c.expectations = t) ↔
      Expectations.ofEntries? es = .ok t := by
  have hw := Expectations.ofDatum?_array hes
  simp only [ofText_eq_ok_iff htext]
  constructor
  · rintro ⟨c, hc, rfl⟩
    have htable := h.expectations_eq hc
    rwa [hw, toOption_eq_some_iff] at htable
  · intro ht
    have hnodup : (es.map Expectation.name).Nodup := Expectations.exists_ofEntries?_iff.mp ⟨t, ht⟩
    obtain ⟨c, hc⟩ := Option.isSome_iff_exists.mp <|
      ofDatum?_isSome_iff.mpr (h.accepted (.table rfl hes hnodup))
    have htable := h.expectations_eq hc
    rw [hw, toOption_eq_some_iff, ht, Except.ok.injEq] at htable
    exact ⟨c, hc, htable.symm⟩

theorem ofText_refused {es : List Expectation} {vs : List Datum} {v : Datum} {text : String}
    (origin : Path) (htext : Says text v) (h : HasTable (.array vs) v)
    (hes : List.Forall₂ Expectation.Written es vs) {n : String}
    (hn : Expectations.ofEntries? es = .error n) :
    ∃ place, ofText text origin =
      .error (.configMalformed origin (Expectations.repeatedMessage n ++ place)) := by
  obtain ⟨f, hf, hp⟩ := (h.refuses (Expectations.reader_refuses hes hn)).whole htext
  obtain ⟨place, hplace⟩ := message_repeatedName text.toList hp
  refine ⟨place, ?_⟩
  rw [ofText, ofJson, hf, ← hplace]
  rfl

end Config

/-! ### Tables from anywhere -/

namespace Expectations

/-- **A table is a list of entries with names of their own, wherever it comes from.**
Exactly such a list is a table; the table lists it as it stands and finds for each
name the entry that has it; any other list is refused for the first entry whose
name stands before it.  A JSON text of the list is that same table or is refused for
that same name, alone and where a configuration has its table; and a table is read
back as it was. -/
theorem built_distinct_in_order (es : List Expectation) :
    ((∃ t, ofEntries? es = .ok t) ↔ (es.map Expectation.name).Nodup) ∧
      (∀ t, ofEntries? es = .ok t → t.entries = es ∧
        ∀ n, (∀ e, t.get? n = some e ↔ e ∈ es ∧ e.name = n) ∧
          (t.get? n = none ↔ ∀ e ∈ es, e.name ≠ n)) ∧
      (∀ n, ofEntries? es = .error n ↔
        ∃ before e after, es = before ++ e :: after ∧ e.name = n ∧
          (∃ e' ∈ before, e'.name = n) ∧ (before.map Expectation.name).Nodup) ∧
      (∀ vs text, List.Forall₂ Expectation.Written es vs → Says text (.array vs) →
        (∀ t, ofJson text = .ok t ↔ ofEntries? es = .ok t) ∧
          ∀ n, ofEntries? es = .error n → ∃ place, ofJson text = .error
            ("Dependency " ++ n ++ " is listed more than once in the expectation table" ++
              place)) ∧
      (∀ vs v text origin, List.Forall₂ Expectation.Written es vs →
        Config.HasTable (.array vs) v → Says text v →
        (∀ t, (∃ c, Config.ofText text origin = .ok c ∧ c.expectations = t) ↔
            ofEntries? es = .ok t) ∧
          ∀ n, ofEntries? es = .error n → ∃ place, Config.ofText text origin = .error
            (.configMalformed origin
              ("Dependency " ++ n ++ " is listed more than once in the expectation table" ++
                place))) ∧
      ∀ t, (∀ text, Says text (Config.expectationsJson t).toDatum → ofJson text = .ok t) ∧
        ofJson (String.ofList (Config.expectationsJson t).compact) = .ok t ∧
        ofJson (String.ofList ((Config.expectationsJson t).pretty 0)) = .ok t := by
  refine ⟨exists_ofEntries?_iff, ?found, fun _ => ofEntries?_eq_error_iff, ?alone, ?within, ?back⟩
  case found =>
    intro t ht
    obtain rfl := ofEntries?_eq_ok_iff.mp ht
    exact ⟨rfl, fun n => ⟨fun e => get?_eq_some_iff, get?_eq_none_iff⟩⟩
  case alone =>
    intro vs text hes htext
    exact ⟨fun t => ofJson_eq_ok_iff htext hes, fun n => ofJson_refused htext hes⟩
  case within =>
    intro vs v text origin hes h htext
    exact ⟨fun t => Config.ofText_table_iff htext h hes,
      fun n => Config.ofText_refused origin htext h hes⟩
  case back =>
    intro t
    exact ⟨fun text => ofJson_written, ofJson_written (Value.says_compact _),
      ofJson_written (Value.says_pretty _)⟩

/-- Two entries as a list of lists, and a third that repeats a name, alone and in a
configuration with a root. -/
theorem pair_built_distinct_in_order :
    (∃ t, ofEntries? [⟨"a", "1", "x"⟩, ⟨"b", "2", "y"⟩] = .ok t ∧
        t.get? "b" = some ⟨"b", "2", "y"⟩ ∧ t.get? "c" = none ∧
        ofJson "[[\"a\",\"1\",\"x\"],[\"b\",\"2\",\"y\"]]" = .ok t ∧
        ∃ c, Config.ofText
            "\x7b\"expectations\":[[\"a\",\"1\",\"x\"],[\"b\",\"2\",\"y\"]],\"root\":\"/w\"\x7d" [] =
            .ok c ∧ c.expectations = t) ∧
      ofEntries? [⟨"a", "1", "x"⟩, ⟨"a", "2", "y"⟩] = .error "a" ∧
        (∃ place, ofJson "[[\"a\",\"1\",\"x\"],[\"a\",\"2\",\"y\"]]" =
          .error (repeatedMessage "a" ++ place)) ∧
        ∃ place, Config.ofText
            "\x7b\"expectations\":[[\"a\",\"1\",\"x\"],[\"a\",\"2\",\"y\"]],\"root\":\"/w\"\x7d" [] =
            .error (.configMalformed [] (repeatedMessage "a" ++ place)) := by
  have hroot : Config.Accepted (.object [("root", .string "/w")]) := by
    refine .object ?_ (by decide)
    intro m hm
    obtain rfl := List.mem_singleton.mp hm
    exact ⟨by decide, .string (by decide)⟩
  -- a list of lists is written, and stands before the root
  have hwritten : ∀ n n' : String, List.Forall₂ Expectation.Written
      [⟨n, "1", "x"⟩, ⟨n', "2", "y"⟩]
      [.array [.string n, .string "1", .string "x"],
        .array [.string n', .string "2", .string "y"]] :=
    fun n n' => .cons .values (.cons .values .nil)
  have hwithin : ∀ w : Datum,
      Config.HasTable w (.object [("expectations", w), ("root", .string "/w")]) :=
    fun w => show Config.HasTable w (.object ([] ++ ("expectations", w) :: _)) from
      .member hroot (by decide)
  constructor
  · obtain ⟨hbuilt, hfound, -, halone, hwithin', -⟩ :=
      built_distinct_in_order [⟨"a", "1", "x"⟩, ⟨"b", "2", "y"⟩]
    obtain ⟨t, ht⟩ := hbuilt.mpr (by decide)
    obtain ⟨-, hget⟩ := hfound t ht
    refine ⟨t, ht, ((hget "b").1 _).mpr (by decide), (hget "c").2.mpr (by decide), ?_, ?_⟩
    · exact ((halone _ _ (hwritten "a" "b") (Value.says_compact
        (.array [.array [.string "a", .string "1", .string "x"],
          .array [.string "b", .string "2", .string "y"]]))).1 t).mpr ht
    · exact ((hwithin' _ _ _ [] (hwritten "a" "b") (hwithin _) (Value.says_compact
        (.object [("expectations", .array [.array [.string "a", .string "1", .string "x"],
          .array [.string "b", .string "2", .string "y"]]), ("root", .string "/w")]))).1 t).mpr ht
  · obtain ⟨-, -, hrefused, halone, hwithin', -⟩ :=
      built_distinct_in_order [⟨"a", "1", "x"⟩, ⟨"a", "2", "y"⟩]
    have hn := (hrefused "a").mpr ⟨[⟨"a", "1", "x"⟩], ⟨"a", "2", "y"⟩, [], by decide⟩
    refine ⟨hn, ?_, ?_⟩
    · exact (halone _ _ (hwritten "a" "a") (Value.says_compact
        (.array [.array [.string "a", .string "1", .string "x"],
          .array [.string "a", .string "2", .string "y"]]))).2 "a" hn
    · exact (hwithin' _ _ _ [] (hwritten "a" "a") (hwithin _) (Value.says_compact
        (.object [("expectations", .array [.array [.string "a", .string "1", .string "x"],
          .array [.string "a", .string "2", .string "y"]]), ("root", .string "/w")]))).2 "a" hn

end Expectations

end WorkspaceAudit

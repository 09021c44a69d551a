/-
WorkspaceAudit/Proofs/Toml/Lines.lean

Documents that are lines, each of which adds something.

A text is lines if each of them stands in it with the end of a line after it, empty
lines between them or not (`InLines`).  `Adds d line d'` says that a line makes the
draft `d` the draft `d'`, whatever end follows.  Headers of bare names are such lines
(`adds_header`), and so is the text of a key with that of a value after it
(`adds_entry`), a string under a bare name above all (`adds_string`).  A text of lines
is read as the draft that they lead to (`parse_lines`).
-/
import WorkspaceAudit.Proofs.Toml.Reading
import WorkspaceAudit.Toml.Document

namespace WorkspaceAudit.Toml

open Reader

/-! ### What is not consumed -/

/-- The text does not go on with such a character. -/
def Stops (test : Char → Bool) (s : List Char) : Prop :=
  ∀ c ∈ s.head?, test c = false

theorem stops_nil (test : Char → Bool) : Stops test [] :=
  nofun

theorem stops_cons {test : Char → Bool} {c : Char} (h : test c = false) (s : List Char) :
    Stops test (c :: s) := by
  rintro d ⟨⟩
  exact h

theorem Stops.takeWhile {test : Char → Bool} {s : List Char} (h : Stops test s) :
    s.takeWhile test = [] := by
  cases s with
  | nil => rfl
  | cons c s => rw [List.takeWhile_cons_of_neg (by rw [h c rfl]; decide)]

theorem Stops.dropWhile {test : Char → Bool} {s : List Char} (h : Stops test s) :
    s.dropWhile test = s := by
  cases s with
  | nil => rfl
  | cons c s => rw [List.dropWhile_cons_of_neg (by rw [h c rfl]; decide)]

/-! ### What follows a value -/

/-- After blanks comes what may follow a value: a comma, the end of an array or a table,
a comment, or the end of the line or of the text. -/
def EndsValue (r : List Char) : Prop :=
  ∀ c ∈ (r.dropWhile isBlank).head?, c ∈ [',', ']', '\x7d', '#', '\n', '\r']

theorem EndsValue.stops {r : List Char} (h : EndsValue r) {test : Char → Bool}
    (htest : ([' ', '\t', ',', ']', '\x7d', '#', '\n', '\r'].all fun c => !test c) = true) :
    Stops test r := by
  have hnone : ∀ c ∈ [' ', '\t', ',', ']', '\x7d', '#', '\n', '\r'], test c = false := by
    simpa only [List.all_eq_true, Bool.not_eq_true'] using htest
  intro c hc
  obtain ⟨r, rfl⟩ := List.head?_eq_some_iff.mp hc
  by_cases hblank : isBlank c = true
  · rw [isBlank, Bool.or_eq_true, beq_iff_eq, beq_iff_eq] at hblank
    rcases hblank with rfl | rfl
    · exact hnone _ (by simp)
    · exact hnone _ (by simp)
  · rw [EndsValue, List.dropWhile_cons_of_neg hblank] at h
    exact hnone c (List.mem_cons_of_mem _ (List.mem_cons_of_mem _ (h c rfl)))

theorem EndsValue.tail {c : Char} {r : List Char} (hc : isBlank c = true) (h : EndsValue (c :: r)) :
    EndsValue r := by
  rwa [EndsValue, List.dropWhile_cons_of_pos hc] at h

/-! ### Keys -/

/-- A name that may stand without quotes: letters, digits, dashes and underscores of
ASCII, at least one. -/
def Bare (name : String) : Prop :=
  name ≠ "" ∧ ∀ c ∈ name.toList, c.isAlphanum ∨ c = '-' ∨ c = '_'

instance (name : String) : Decidable (Bare name) :=
  @instDecidableAnd _ _ _
    (List.decidableBAll (fun c => c.isAlphanum ∨ c = '-' ∨ c = '_') name.toList)

/-- A name in a key, with the blanks around it. -/
def spacedKey : Reader String := do
  blanks
  let k ← simpleKey
  blanks
  return k

theorem ne_of_bare {c d : Char} (hc : isBareKeyChar c) (hd : isBareKeyChar d = false) : c ≠ d := by
  rintro rfl
  rw [hc] at hd
  cases hd

theorem not_isBlank_of_bare {c : Char} (hc : isBareKeyChar c) : isBlank c = false := by
  have hspace := ne_of_bare hc (by decide : isBareKeyChar ' ' = false)
  have htab := ne_of_bare hc (by decide : isBareKeyChar '\t' = false)
  simp [isBlank, hspace, htab]

theorem Bare.isBareKeyChar {name : String} (h : Bare name) :
    ∀ c ∈ name.toList, isBareKeyChar c := by
  intro c hc
  rcases h.2 c hc with halphanum | rfl | rfl
  · rw [Toml.isBareKeyChar, halphanum]
    rfl
  · decide
  · decide

/-- A bare name starts with a character of it. -/
theorem Bare.opens {name : String} (h : Bare name) :
    ∃ c cs, name.toList = c :: cs ∧ Toml.isBareKeyChar c := by
  cases hcs : name.toList with
  | nil => exact absurd (String.toList_eq_nil_iff.mp hcs) h.1
  | cons c cs => exact ⟨c, cs, rfl, h.isBareKeyChar c (by rw [hcs]; exact List.mem_cons_self)⟩

theorem reads_simpleKey {name : String} (h : Bare name) {r : List Char}
    (hr : Stops isBareKeyChar r) : Reads simpleKey (name.toList ++ r) name r := by
  obtain ⟨c, cs, hcs, hc⟩ := h.opens
  have hmany : Reads (many1 isBareKeyChar) (name.toList ++ r) name.toList r := by
    rw [Reads, many1, List.takeWhile_append_of_pos h.isBareKeyChar,
      List.dropWhile_append_of_pos h.isBareKeyChar, hr.takeWhile, hr.dropWhile, List.append_nil,
      hcs]
  have hbare := hmany.bind (f := fun cs => Pure.pure (String.ofList cs)) (Reads.pure _ r)
  rw [String.ofList_toList] at hbare
  rw [Reads, simpleKey]
  · exact hbare
  · intro r' heq
    rw [hcs] at heq
    exact ne_of_bare hc (by decide) (List.cons.inj heq).1
  · intro r' heq
    rw [hcs] at heq
    exact ne_of_bare hc (by decide) (List.cons.inj heq).1

theorem reads_spacedKey {name : String} (h : Bare name) {r : List Char}
    (hr : Stops isBareKeyChar r) :
    Reads spacedKey (name.toList ++ r) name (r.dropWhile isBlank) := by
  obtain ⟨c, cs, hcs, hc⟩ := h.opens
  have hblank : Stops isBlank (name.toList ++ r) := by
    rw [hcs]
    exact stops_cons (not_isBlank_of_bare hc) _
  have hstart : Reads blanks (name.toList ++ r) () (name.toList ++ r) := by
    rw [Reads, blanks, hblank.dropWhile]
  have hend : Reads blanks r () (r.dropWhile isBlank) := rfl
  exact hstart.bind ((reads_simpleKey h hr).bind (hend.bind (Reads.pure _ _)))

/-- The names after the first one of a key. -/
def pointed (names : List String) : List Char :=
  names.flatMap fun n => '.' :: n.toList

/-- Names with points between them. -/
def dotted : List String → List Char
  | [] => []
  | n :: ns => n.toList ++ pointed ns

/-- What follows does not belong to a key. -/
def EndsKey (r : List Char) : Prop :=
  Stops isBareKeyChar r ∧ Stops (· == '.') (r.dropWhile isBlank)

theorem stops_pointed (names : List String) {r : List Char} (hr : EndsKey r) :
    Stops isBareKeyChar (pointed names ++ r) := by
  cases names with
  | nil => exact hr.1
  | cons n ns => exact stops_cons (by decide) _

theorem more_pointed {names : List String} (h : ∀ n ∈ names, Bare n) {r : List Char}
    (hr : EndsKey r) :
    More spacedKey (sign '.') ((pointed names ++ r).dropWhile isBlank) names
      (r.dropWhile isBlank) := by
  induction names with
  | nil => exact .done (misses_sign fun heq => by simpa using hr.2 '.' heq)
  | cons n ns ih =>
    rw [List.forall_mem_cons] at h
    have hpoint : pointed (n :: ns) ++ r = '.' :: (n.toList ++ (pointed ns ++ r)) := by
      simp [pointed]
    rw [hpoint, (stops_cons (by decide) _ : Stops isBlank _).dropWhile]
    exact .more (reads_sign _ _) (reads_spacedKey h.1 (stops_pointed ns hr)) (ih h.2)

/-- What starts with a sign that is no blank is there to be read, piece by piece. -/
theorem length_le_signed {α : Type} {c : Char} (hc : isBlank c = false) (rest : α → List Char)
    (as : List α) (r : List Char) :
    as.length ≤ ((as.flatMap (fun a => c :: rest a) ++ r).dropWhile isBlank).length := by
  have hlength : ∀ as : List α, as.length ≤ (as.flatMap fun a => c :: rest a).length := by
    intro as
    induction as with
    | nil => exact Nat.zero_le _
    | cons a as ih =>
      rw [List.flatMap_cons, List.length_append, List.length_cons, List.length_cons]
      omega
  cases as with
  | nil => exact Nat.zero_le _
  | cons a as =>
    have hsign : Stops isBlank ((a :: as).flatMap (fun a => c :: rest a) ++ r) := stops_cons hc _
    rw [hsign.dropWhile, List.length_append]
    exact Nat.le_trans (hlength _) (Nat.le_add_right _ _)

/-- A key of bare names is read, with the blanks after it. -/
theorem reads_key {k : KeyPath} (h : ∀ n ∈ k.names, Bare n) (hlimit : k.names.length ≤ keyLimit)
    {r : List Char} (hr : EndsKey r) : Reads key (dotted k.names ++ r) k (r.dropWhile isBlank) := by
  have hnames : Reads (separated spacedKey (sign '.')) (dotted k.names ++ r) k.names
      (r.dropWhile isBlank) := by
    cases hk : k.names with
    | nil => simp [KeyPath.names] at hk
    | cons n ns =>
      rw [hk, List.forall_mem_cons] at h
      rw [dotted, List.append_assoc]
      exact (more_pointed h.2 hr).separated (reads_spacedKey h.1 (stops_pointed ns hr))
        (length_le_signed rfl String.toList ns r)
  have hlast : k.names.getLast? = some k.last := List.getLast?_concat
  have hparents : k.names.dropLast = k.parents := List.dropLast_concat
  refine (hnames.label "key").checked ?_
  rw [hlast]
  dsimp only
  rw [if_pos hlimit, hparents]

/-! ### Strings -/

theorem reads_basicFrom {cs : List Char} (h : ∀ c ∈ cs, isPlain c) {n : Nat} (hn : cs.length < n)
    (soFar r : List Char) :
    Reads (basicFrom n soFar) (cs ++ '"' :: r) (String.ofList (soFar.reverse ++ cs)) r := by
  induction cs generalizing n soFar with
  | nil =>
    obtain ⟨n, rfl⟩ := Nat.exists_eq_add_one_of_ne_zero (Nat.ne_zero_of_lt hn)
    rw [List.append_nil]
    rfl
  | cons c cs ih =>
    obtain ⟨n, rfl⟩ := Nat.exists_eq_add_one_of_ne_zero (Nat.ne_zero_of_lt hn)
    rw [List.forall_mem_cons] at h
    have hrest := ih h.2 (Nat.lt_of_succ_lt_succ hn) (c :: soFar)
    rw [List.reverse_cons, List.append_assoc, List.singleton_append] at hrest
    rw [Reads, List.cons_append, basicFrom, if_pos h.1]
    exact hrest

/-- Where no third quote follows two of them, no block opens. -/
theorem misses_basicBlock {cs : List Char} (h : ∀ c ∈ cs, isPlain c) {r : List Char}
    (hr : Stops (· == '"') r) : Misses basicBlock ('"' :: (cs ++ '"' :: r)) := by
  have hquotes : dropStart? ['"', '"', '"'] ('"' :: (cs ++ '"' :: r)) = none := by
    rw [dropStart?, if_pos rfl]
    cases cs with
    | nil =>
      rw [List.nil_append, dropStart?, if_pos rfl]
      cases r with
      | nil => rfl
      | cons c r => rw [dropStart?, if_neg (beq_eq_false_iff_ne.mp (hr c rfl)).symm]
    | cons c cs =>
      have hne : '"' ≠ c := by
        rintro rfl
        exact absurd (h _ List.mem_cons_self) (by decide)
      rw [List.cons_append, dropStart?, if_neg hne]
  exact ⟨_, by rw [basicBlock, hquotes]⟩

theorem reads_basic {v : String} (hv : ∀ c ∈ v.toList, isPlain c) (r : List Char) :
    Reads basic ('"' :: (v.toList ++ '"' :: r)) v r := by
  have hlength : v.toList.length < (v.toList ++ '"' :: r).length + 1 := by
    rw [List.length_append]
    omega
  have hfrom := reads_basicFrom hv hlength [] r
  rw [List.reverse_nil, List.nil_append, String.ofList_toList] at hfrom
  exact hfrom

/-- Quotes around characters that stand for themselves are a value. -/
theorem reads_valueOf_string {v : String} (hv : ∀ c ∈ v.toList, isPlain c) {r : List Char}
    (hr : Stops (· == '"') r) (container : Reader Value) :
    Reads (valueOf container) ('"' :: (v.toList ++ '"' :: r)) (.string v) r := by
  have htext : Reads text ('"' :: (v.toList ++ '"' :: r)) v r :=
    (((misses_basicBlock hv hr).orElse (reads_basic hv r)).orElse _).orElse _
  exact htext.bind (f := fun t => Pure.pure (Value.string t)) (Reads.pure _ r)

/-! ### Texts of keys and values -/

/-- The text of a key, to be read where an equals sign follows. -/
structure IsKeyText (text : String) (k : KeyPath) : Prop where
  opens : ∃ c cs, text.toList = c :: cs ∧ isBlank c = false ∧ c ≠ '\uFEFF' ∧
    c ∉ ['#', '[', '\n', '\r']
  reads : ∀ r, Reads key (text.toList ++ ' ' :: '=' :: r) k ('=' :: r)

/-- The text of a value, to be read by `p` where no quote follows. -/
structure IsValueText (p : Reader Value) (text : String) (v : Value) : Prop where
  opens : ∃ c cs, text.toList = c :: cs ∧ isBlank c = false
  reads : ∀ ⦃r⦄, Stops (· == '"') r → Reads p (text.toList ++ r) v r

/-- Between double quotes. -/
def inQuotes (s : String) : String :=
  "\"" ++ s ++ "\""

theorem toList_inQuotes_append (s : String) (r : List Char) :
    (inQuotes s).toList ++ r = '"' :: (s.toList ++ '"' :: r) := by
  simp [inQuotes]

/-- After the first list each one has the separator before it. -/
theorem intercalate_cons_eq {α : Type} (sep xs : List α) (xss : List (List α)) :
    sep.intercalate (xs :: xss) = xs ++ xss.flatMap (sep ++ ·) := by
  induction xss generalizing xs with
  | nil => simp
  | cons ys xss ih => rw [List.intercalate_cons_cons, ih, List.flatMap_cons, List.append_assoc,
      List.append_assoc]

theorem toList_dottedPath (names : List String) : (dottedPath names).toList = dotted names := by
  rw [dottedPath, String.toList_intercalate]
  cases names with
  | nil => rfl
  | cons n ns =>
    rw [List.map_cons, intercalate_cons_eq, List.flatMap_map]
    rfl

/-- Bare names are the text of a key. -/
theorem isKeyText_of_bare {k : KeyPath} (hbare : ∀ n ∈ k.names, Bare n)
    (hlimit : k.names.length ≤ keyLimit) : IsKeyText (dottedPath k.names) k where
  opens := by
    obtain ⟨n, ns, hk⟩ : ∃ n ns, k.names = n :: ns :=
      List.exists_cons_of_ne_nil (by simp [KeyPath.names])
    obtain ⟨c, cs, hcs, hc⟩ := (hbare n (hk ▸ List.mem_cons_self)).opens
    refine ⟨c, cs ++ pointed ns, ?_, not_isBlank_of_bare hc, ne_of_bare hc (by decide), ?_⟩
    · rw [toList_dottedPath, hk, dotted, hcs, List.cons_append]
    · simp only [List.mem_cons, List.not_mem_nil, or_false, not_or]
      exact ⟨ne_of_bare hc rfl, ne_of_bare hc rfl, ne_of_bare hc rfl, ne_of_bare hc rfl⟩
  reads r := by
    rw [toList_dottedPath]
    exact reads_key hbare hlimit ⟨stops_cons (by decide) _, stops_cons (by decide) _⟩

theorem Bare.isKeyText {name : String} (h : Bare name) : IsKeyText name ⟨[], name⟩ :=
  isKeyText_of_bare (k := ⟨[], name⟩) (fun n hn => List.mem_singleton.mp hn ▸ h)
    (show 1 ≤ keyLimit by decide)

/-- A string between quotes is the text of a value. -/
theorem isValueText_inQuotes {v : String} (hv : ∀ c ∈ v.toList, isPlain c)
    (container : Reader Value) : IsValueText (valueOf container) (inQuotes v) (.string v) where
  opens := ⟨'"', _, (List.append_nil _).symm.trans (toList_inQuotes_append v []), by decide⟩
  reads r hr := by
    rw [toList_inQuotes_append]
    exact reads_valueOf_string hv hr container

/-! ### Ends of lines -/

/-- A text starts with the end of a line, or ends itself; what is left then. -/
inductive Ended : List Char → List Char → Prop
  | feed (r : List Char) : Ended ('\n' :: r) r
  | both (r : List Char) : Ended ('\r' :: '\n' :: r) r
  | last : Ended [] []

section Ends

variable {s r : List Char} (h : Ended s r)
include h

theorem Ended.length_le : r.length ≤ s.length := by
  cases h with
  | feed => exact Nat.le_succ _
  | both => exact Nat.le_trans (Nat.le_succ _) (Nat.le_succ _)
  | last => exact Nat.le_refl _

theorem Ended.stops (test : Char → Bool) (hfeed : test '\n' = false)
    (hreturn : test '\r' = false) : Stops test s := by
  cases h with
  | feed => exact stops_cons hfeed _
  | both => exact stops_cons hreturn _
  | last => exact stops_nil test

theorem Ended.lineRest : Reads lineRest s () r := by
  have hblank : Reads blanks s () s := by
    rw [Reads, blanks, (h.stops _ (by decide) (by decide)).dropWhile]
  have hcomment : Misses comment s :=
    (misses_sign fun heq => by
      simpa using h.stops (· == '#') (by decide) (by decide) '#' heq).bind
  have hend : Reads lineEnd s () r := by
    cases h with
    | feed => rfl
    | both => rfl
    | last => rfl
  exact hblank.bind (hcomment.optional.bind hend)

end Ends

/-! ### Lines that add something -/

/-- A line makes a draft another one, whatever end follows. -/
structure Adds (d : Draft) (line : String) (d' : Draft) : Prop where
  opens : ∃ c cs, line.toList = c :: cs ∧ isBlank c = false ∧ c ≠ '\uFEFF'
  reads : ∀ ⦃s r : List Char⦄, Ended s r → Reads (item d) (line.toList ++ s) d' r

/-- The line of a header. -/
def headerLine (path : List String) : String :=
  "[" ++ dottedPath path ++ "]"

/-- The line of a string under a name. -/
def stringLine (name v : String) : String :=
  name ++ " = \"" ++ v ++ "\""

section Items

variable {d d' : Draft} {r : List Char}

/-- No second bracket makes this the header of a series. -/
theorem reads_header {c : Char} (hc : c ≠ '[') {s : List Char}
    (h : Reads (bracketed "[" "]" d.openTable) ('[' :: c :: s) d' r) :
    Reads (header d) ('[' :: c :: s) d' r := by
  refine Reads.label "table header" ?_
  dsimp only [Reads]
  split
  · next heq => exact absurd (List.cons.inj (List.cons.inj heq).2).1 hc
  · exact h
  · next hshort => exact absurd rfl (hshort _ _ _)

theorem reads_entry {k : KeyPath} {v : Value} {s t u : List Char} (hkey : Reads key s k ('=' :: t))
    (hvalue : Reads (value depthLimit) (t.dropWhile isBlank) v u) (hu : Ended u r)
    (h : d.insert k v = .ok d') : Reads (entry d) s d' r := by
  refine Reads.checked (a := (k, v)) ?_ h
  have hblanks : Reads blanks t () (t.dropWhile isBlank) := rfl
  refine hkey.bind (((reads_sign '=' t).expecting _).bind (hblanks.bind ?_)).firm
  exact hvalue.bind ((hu.lineRest.expecting _).bind (Reads.pure _ r))

/-- What starts like nothing else is an entry. -/
theorem Reads.item {c : Char} {cs : List Char} (hc : c ∉ ['#', '[', '\n', '\r'])
    (h : Reads (entry d) (c :: cs) d' r) : Reads (item d) (c :: cs) d' r := by
  simp only [List.mem_cons, List.not_mem_nil, or_false, not_or] at hc
  rw [Reads, Toml.item]
  · exact h.firm
  · exact List.cons_ne_nil c cs
  · exact fun r' heq => hc.1 (List.cons.inj heq).1
  · exact fun r' heq => hc.2.1 (List.cons.inj heq).1
  · exact fun r' heq => hc.2.2.1 (List.cons.inj heq).1
  · exact fun r' heq => hc.2.2.2 (List.cons.inj heq).1

end Items

/-- A header of bare names opens its table. -/
theorem adds_header {d d' : Draft} {k : KeyPath} (hbare : ∀ n ∈ k.names, Bare n)
    (hlimit : k.names.length ≤ keyLimit) (h : d.openTable k = .ok d') :
    Adds d (headerLine k.names) d' := by
  have hline : (headerLine k.names).toList = '[' :: (dotted k.names ++ [']']) := by
    simp [headerLine, toList_dottedPath]
  refine ⟨⟨'[', _, hline, by decide, by decide⟩, fun s r hs => ?_⟩
  rw [hline, List.cons_append, List.append_assoc, List.singleton_append]
  have hends : EndsKey (']' :: s) := ⟨stops_cons (by decide) s, stops_cons (by decide) s⟩
  have hbracketed : Reads (bracketed "[" "]" d.openTable) ('[' :: (dotted k.names ++ ']' :: s))
      d' r := by
    refine Reads.checked (a := k) ?_ h
    refine (reads_signs ['['] _).bind ((reads_key hbare hlimit hends).firm.bind ?_)
    refine ((reads_signs [']'] s).expecting _).firm.bind ?_
    exact (hs.lineRest.expecting _).firm.bind (Reads.pure k r)
  -- a name follows the bracket
  obtain ⟨n, ns, hk⟩ : ∃ n ns, k.names = n :: ns :=
    List.exists_cons_of_ne_nil (by simp [KeyPath.names])
  obtain ⟨c, cs, hcs, hc⟩ := (hbare n (hk ▸ List.mem_cons_self)).opens
  rw [hk, dotted, hcs] at hbracketed ⊢
  exact (reads_header (ne_of_bare hc (by decide)) hbracketed).firm

/-- The line of a value under a key. -/
def entryLine (key value : String) : String :=
  key ++ " = " ++ value

theorem toList_entryLine_append (key value : String) (s : List Char) :
    (entryLine key value).toList ++ s =
      key.toList ++ ' ' :: '=' :: ' ' :: (value.toList ++ s) := by
  simp [entryLine]

/-- A value under a key is added to the table of the present header. -/
theorem adds_entry {d d' : Draft} {k : KeyPath} {v : Value} {key text : String}
    (hkey : IsKeyText key k) (hvalue : IsValueText (value depthLimit) text v)
    (h : d.insert k v = .ok d') : Adds d (entryLine key text) d' := by
  obtain ⟨c, cs, hcs, hblank, hmark, hc⟩ := hkey.opens
  constructor
  · have hopens := toList_entryLine_append key text []
    rw [List.append_nil, hcs] at hopens
    exact ⟨c, _, hopens, hblank, hmark⟩
  intro s r hs
  -- one blank before the value, which starts with none
  have hread := hvalue.reads (hs.stops _ (by decide) (by decide))
  obtain ⟨b, bs, hbs, hb⟩ := hvalue.opens
  have hstart : (' ' :: (text.toList ++ s)).dropWhile isBlank = text.toList ++ s := by
    rw [List.dropWhile_cons_of_pos (by decide), hbs]
    exact (stops_cons hb _).dropWhile
  rw [← hstart] at hread
  have hentry := reads_entry (d := d) (hkey.reads _) hread hs h
  rw [toList_entryLine_append, hcs]
  rw [hcs] at hentry
  exact Reads.item hc hentry

theorem stringLine_eq (name v : String) : stringLine name v = entryLine name (inQuotes v) := by
  apply String.toList_inj.mp
  simp [stringLine, entryLine, inQuotes]

/-- A string under a bare name is added to the table of the present header. -/
theorem adds_string {d d' : Draft} {name v : String} (hname : Bare name)
    (hv : ∀ c ∈ v.toList, isPlain c) (h : d.insert ⟨[], name⟩ (.string v) = .ok d') :
    Adds d (stringLine name v) d' := by
  rw [stringLine_eq]
  exact adds_entry hname.isKeyText (isValueText_inQuotes hv _) h

/-! ### Documents of lines -/

/-- Lines with an end after each, and empty lines anywhere. -/
inductive InLines : List String → List Char → Prop
  | nil : InLines [] []
  | empty {ls : List String} {s r : List Char} : Ended s r → InLines ls r → InLines ls s
  | line {l : String} {ls : List String} {s r : List Char} : Ended s r → InLines ls r →
      InLines (l :: ls) (l.toList ++ s)

/-- The draft that lines lead to. -/
inductive Leads : Draft → List String → Draft → Prop
  | nil {d : Draft} : Leads d [] d
  | cons {d d' d'' : Draft} {l : String} {ls : List String} : Adds d l d' →
      Leads d' ls d'' → Leads d (l :: ls) d''

theorem Leads.append {d d' d'' : Draft} {ls ls' : List String} (h : Leads d ls d')
    (h' : Leads d' ls' d'') : Leads d (ls ++ ls') d'' := by
  induction h with
  | nil => exact h'
  | cons hadds _ ih => exact .cons hadds (ih h')

/-- No line starts with what is skipped before it. -/
theorem InLines.stops {ls : List String} {s : List Char} (h : InLines ls s) {d d' : Draft}
    (hd : Leads d ls d') (test : Char → Bool) (hfeed : test '\n' = false)
    (hreturn : test '\r' = false)
    (hopens : ∀ c, isBlank c = false → c ≠ '\uFEFF' → test c = false) : Stops test s := by
  cases h with
  | nil => exact stops_nil test
  | empty hs => exact hs.stops test hfeed hreturn
  | line =>
    cases hd with
    | cons hadds =>
      obtain ⟨c, cs, hcs, hblank, hmark⟩ := hadds.opens
      rw [hcs]
      exact stops_cons (hopens c hblank hmark) _

theorem InLines.dropWhile_isBlank {ls : List String} {s : List Char} (h : InLines ls s)
    {d d' : Draft} (hd : Leads d ls d') : s.dropWhile isBlank = s :=
  (h.stops hd isBlank (by decide) (by decide) fun _ hblank _ => hblank).dropWhile

/-- Lines are read one by one. -/
theorem items_lines {ls : List String} {s : List Char} (h : InLines ls s) {d d' : Draft}
    (hd : Leads d ls d') {n : Nat} (hn : s.length ≤ n) : Reads (items n d) s d' [] := by
  -- after each line the rest is lines again, without blanks before them
  induction h generalizing d n with
  | nil =>
    cases hd
    cases n <;> rfl
  | @empty ls s r hs hls ih =>
    have hblank := hls.dropWhile_isBlank hd
    cases hs with
    | last => exact ih hd hn
    | feed =>
      obtain ⟨n, rfl⟩ := Nat.exists_eq_add_one_of_ne_zero (Nat.ne_zero_of_lt hn)
      have hrest := ih hd (Nat.le_of_succ_le_succ hn)
      rw [← hblank] at hrest
      exact hrest
    | both =>
      obtain ⟨n, rfl⟩ := Nat.exists_eq_add_one_of_ne_zero (Nat.ne_zero_of_lt hn)
      have hrest := ih hd (Nat.le_of_succ_le (Nat.le_of_succ_le_succ hn))
      rw [← hblank] at hrest
      exact hrest
  | @line l ls s r hs hls ih =>
    cases hd with
    | @cons _ d₁ _ _ _ hadds hd =>
      obtain ⟨c, cs, hcs, -⟩ := hadds.opens
      have hle := hs.length_le
      rw [List.length_append, hcs, List.length_cons] at hn
      obtain ⟨n, rfl⟩ : ∃ k, n = k + 1 := Nat.exists_eq_add_one_of_ne_zero (by omega)
      have hrest := ih hd (show r.length ≤ n by omega)
      rw [Reads, items, hadds.reads hs]
      dsimp only
      rw [hls.dropWhile_isBlank hd]
      exact hrest

/-- **A text of lines is the document that they lead to.** -/
theorem parse_lines {ls : List String} {text : String} (h : InLines ls text.toList)
    {d : Draft} (hd : Leads .empty ls d) : parse text = .ok d.value := by
  have hmark : Misses (sign '\uFEFF') text.toList := misses_sign fun heq => by
    simpa using h.stops hd (· == '\uFEFF') (by decide) (by decide)
      (fun c _ hc => beq_eq_false_iff_ne.mpr hc) '\uFEFF' heq
  have hblanks : Reads blanks text.toList () text.toList := by
    rw [Reads, blanks, h.dropWhile_isBlank hd]
  have hitems : Reads (fun s => items s.length .empty s) text.toList d [] :=
    items_lines h hd (Nat.le_refl _)
  have hend : Reads finish [] () [] := rfl
  have hdocument : Reads document text.toList d.value [] :=
    hmark.optional.bind (hblanks.bind (hitems.bind (hend.bind (Reads.pure _ _))))
  rw [parse, hdocument]

end WorkspaceAudit.Toml

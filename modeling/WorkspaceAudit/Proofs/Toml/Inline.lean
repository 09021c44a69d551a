/-
WorkspaceAudit/Proofs/Toml/Inline.lean

Keys in quotes and tables between braces.

A key in quotes is read as the name between them (`isKeyText_inQuotes`).  A list is
read item by item up to what closes it (`more_following`), and what the entries of a
table between braces make is its value (`reads_inlineTable`).
-/
import Mathlib.Data.List.Forall2
import WorkspaceAudit.Proofs.Toml.Lines

namespace WorkspaceAudit.Toml

open Reader

/-! ### Keys in quotes -/

/-- A character of a bare name is printed as it is. -/
theorem isPrintable_of_bare {c : Char} (hc : isBareKeyChar c) : isPrintable c := by
  have hranges : ((decide (c.val ≥ 'A'.val ∧ c.val ≤ 'Z'.val) ||
      (c.val ≥ 'a'.val && c.val ≤ 'z'.val) || (c.val ≥ '0'.val && c.val ≤ '9'.val)) ||
      c == '-' || c == '_') = true := hc
  have hrange : 0x20 ≤ c.toNat ∧ c.toNat ≠ 0x7F := by
    simp only [Bool.or_eq_true, Bool.and_eq_true, decide_eq_true_eq, beq_iff_eq, ge_iff_le,
      UInt32.le_iff_toNat_le, Char.reduceVal, UInt32.reduceToNat] at hranges
    show 0x20 ≤ c.val.toNat ∧ c.val.toNat ≠ 0x7F
    rcases hranges with (((⟨h1, h2⟩ | ⟨h1, h2⟩) | ⟨h1, h2⟩) | rfl) | rfl
    · omega
    · omega
    · omega
    · decide
    · decide
  simp [isPrintable, hrange]

/-- A bare name may as well stand in quotes. -/
theorem Bare.isPlain {name : String} (h : Bare name) : ∀ c ∈ name.toList, isPlain c := by
  intro c hc
  have hbare := h.isBareKeyChar c hc
  have hquote : c ≠ '"' := ne_of_bare hbare rfl
  have hback : c ≠ '\\' := ne_of_bare hbare rfl
  simp [Toml.isPlain, isPrintable_of_bare hbare, hquote, hback]

/-- One name before an equals sign is a key. -/
theorem reads_key_simple {cs r : List Char} {name : String}
    (hstart : Stops isBlank (cs ++ ' ' :: '=' :: r))
    (hname : Reads simpleKey (cs ++ ' ' :: '=' :: r) name (' ' :: '=' :: r)) :
    Reads key (cs ++ ' ' :: '=' :: r) ⟨[], name⟩ ('=' :: r) := by
  have hbefore : Reads blanks (cs ++ ' ' :: '=' :: r) () (cs ++ ' ' :: '=' :: r) := by
    rw [Reads, blanks, hstart.dropWhile]
  have hend : Reads blanks (' ' :: '=' :: r) () ('=' :: r) := rfl
  have hspaced : Reads spacedKey (cs ++ ' ' :: '=' :: r) name ('=' :: r) :=
    hbefore.bind (hname.bind (hend.bind (Reads.pure _ _)))
  have hnone : Misses (sign '.') ('=' :: r) := ⟨_, rfl⟩
  have hnames := (More.done hnone).separated hspaced (Nat.zero_le _)
  exact (hnames.label "key").checked rfl

/-- A name in quotes is the text of a key. -/
theorem isKeyText_inQuotes {name : String} (h : ∀ c ∈ name.toList, isPlain c) :
    IsKeyText (inQuotes name) ⟨[], name⟩ where
  opens := ⟨'"', _, (List.append_nil _).symm.trans (toList_inQuotes_append name []), rfl,
    by decide, by decide⟩
  reads r := by
    apply reads_key_simple
    · rw [toList_inQuotes_append]
      exact stops_cons rfl _
    · rw [toList_inQuotes_append]
      exact reads_basic h _

/-! ### Entries -/

/-- A blank before a key makes no difference. -/
theorem reads_key_blank {s r : List Char} {k : KeyPath} (h : Reads key s k r) :
    Reads key (' ' :: s) k r := by
  have hblank : label "key" (separated spacedKey (sign '.')) (' ' :: s) =
    label "key" (separated spacedKey (sign '.')) s := rfl
  exact h.checked_congr hblank

/-- An entry is read with the blank before it and the blanks after it. -/
theorem reads_inlineEntry {p : Reader Value} {ks vs r : List Char} {k : KeyPath} {v : Value}
    (hkey : ∀ s, Reads key (ks ++ ' ' :: '=' :: s) k ('=' :: s)) (hstart : Stops isBlank (vs ++ r))
    (hvalue : Reads p (vs ++ r) v r) :
    Reads (inlineEntry p) (' ' :: (ks ++ ' ' :: '=' :: ' ' :: (vs ++ r))) (k, v)
      (r.dropWhile isBlank) := by
  refine (reads_key_blank (hkey _)).bind (Reads.firm ?_)
  refine ((reads_sign '=' _).expecting _).bind ?_
  have hbefore : Reads blanks (' ' :: (vs ++ r)) () (vs ++ r) := by
    rw [Reads, blanks, List.dropWhile_cons_of_pos rfl, hstart.dropWhile]
  have hafter : Reads blanks r () (r.dropWhile isBlank) := rfl
  exact hbefore.bind (hvalue.bind (hafter.bind (Reads.pure _ _)))

/-! ### Items with commas between them -/

/-- After blanks comes a comma, or what closes the list. -/
def EndsItem (r : List Char) : Prop :=
  ∃ c s, r.dropWhile isBlank = c :: s ∧ (c = ',' ∨ c = ']' ∨ c = '\x7d')

theorem endsItem_cons {c : Char} (h : c = ',' ∨ c = ']' ∨ c = '\x7d') (s : List Char) :
    EndsItem (c :: s) := by
  have hblank : isBlank c = false := by
    rcases h with rfl | rfl | rfl <;> rfl
  exact ⟨c, s, (stops_cons hblank s).dropWhile, h⟩

theorem EndsItem.endsValue {r : List Char} (h : EndsItem r) : EndsValue r := by
  obtain ⟨c, s, hc, hends⟩ := h
  rw [EndsValue, hc]
  rintro d ⟨⟩
  rcases hends with rfl | rfl | rfl <;> decide

/-- The items of a list after the first one. -/
def following (ts : List (List Char)) : List Char :=
  ts.flatMap fun t => ',' :: ' ' :: t

theorem following_cons_append (t : List Char) (ts : List (List Char)) (r : List Char) :
    following (t :: ts) ++ r = ',' :: ' ' :: (t ++ (following ts ++ r)) := by
  simp [following]

theorem endsItem_following (ts : List (List Char)) {r : List Char} (hr : EndsItem r) :
    EndsItem (following ts ++ r) := by
  cases ts with
  | nil => exact hr
  | cons t ts =>
    rw [following_cons_append]
    exact endsItem_cons (.inl rfl) _

section Items

variable {α : Type} {item : Reader α} {ts : List (List Char)} {as : List α}

/-- The text of an item is read as the item, where a comma or the end of the list
follows. -/
def IsItemText (item : Reader α) (t : List Char) (a : α) : Prop :=
  ∀ ⦃r⦄, EndsItem r → Reads item (' ' :: (t ++ r)) a (r.dropWhile isBlank)

/-- Items are read up to what closes the list. -/
theorem more_following (h : List.Forall₂ (IsItemText item) ts as) {r : List Char}
    (hr : EndsItem r) (hend : (r.dropWhile isBlank).head? ≠ some ',') :
    More item (sign ',') ((following ts ++ r).dropWhile isBlank) as (r.dropWhile isBlank) := by
  induction h with
  | nil => exact .done (misses_sign hend)
  | @cons t a ts as hitem _ ih =>
    rw [following_cons_append, (stops_cons rfl _ : Stops isBlank _).dropWhile]
    exact .more (reads_sign _ _) (hitem (endsItem_following ts hr)) ih

theorem length_le_following (h : List.Forall₂ (IsItemText item) ts as) (r : List Char) :
    as.length ≤ ((following ts ++ r).dropWhile isBlank).length := by
  rw [← h.length_eq]
  exact length_le_signed rfl _ ts r

end Items

/-- A table between braces is read as what its entries make. -/
theorem reads_inlineTable {p : Reader Value} {t : List Char} {ts : List (List Char)}
    {e : KeyPath × Value} {es : List (KeyPath × Value)}
    (h : List.Forall₂ (IsItemText (inlineEntry p)) (t :: ts) (e :: es)) {v : Value}
    (hv : inlineTable? (e :: es) = .ok v) (r : List Char) :
    Reads (inlineTable p) ('\x7b' :: ' ' :: (t ++ (following ts ++ ' ' :: '\x7d' :: r))) v r := by
  obtain ⟨hfirst, hrest⟩ := List.forall₂_cons.mp h
  have hclose : EndsItem (' ' :: '\x7d' :: r) := ⟨'\x7d', r, rfl, .inr (.inr rfl)⟩
  have hmore : More (inlineEntry p) (sign ',')
      ((following ts ++ ' ' :: '\x7d' :: r).dropWhile isBlank) es ('\x7d' :: r) :=
    more_following hrest hclose (by simp [isBlank])
  have hentries := hmore.separated (hfirst (endsItem_following ts hclose))
    (length_le_following hrest _)
  have hblanks : Reads blanks ('\x7d' :: r) () ('\x7d' :: r) := rfl
  have hclosing := ((reads_sign '\x7d' r).expecting [.sign "\x7d"]).label "inline table"
  refine (reads_sign _ _).bind (Reads.firm ?_)
  refine Reads.bind (Reads.checked ?_ hv) (hclosing.firm.bind (Reads.pure v r))
  refine hentries.separatedOrNone.bind ?_
  exact hblanks.bind (Reads.pure _ _)

/-! ### Tables of strings -/

/-- A string under a bare name, as an entry of a table. -/
def stringEntry (e : String × String) : KeyPath × Value :=
  (⟨[], e.1⟩, .string e.2)

/-- A table of strings between braces. -/
def inlineText (es : List (String × String)) : String :=
  "\x7b " ++ ", ".intercalate (es.map fun e => stringLine e.1 e.2) ++ " \x7d"

theorem toList_inlineText_append (e : String × String) (es : List (String × String))
    (r : List Char) : (inlineText (e :: es)).toList ++ r =
      '\x7b' :: ' ' :: ((stringLine e.1 e.2).toList ++
        (following (es.map fun e => (stringLine e.1 e.2).toList) ++ ' ' :: '\x7d' :: r)) := by
  rw [inlineText, String.toList_append, String.toList_append, String.toList_intercalate,
    List.map_cons, List.map_cons, intercalate_cons_eq, List.flatMap_map, List.flatMap_map,
    following, List.flatMap_map]
  simp

/-- A name with a string that may stand in a table as it is. -/
def PlainEntry (e : String × String) : Prop :=
  Bare e.1 ∧ ∀ c ∈ e.2.toList, isPlain c

section Tables

variable {c : Reader Value}

theorem isItemText_stringEntry {e : String × String} (h : PlainEntry e) :
    IsItemText (inlineEntry (valueOf c)) (stringLine e.1 e.2).toList (stringEntry e) := by
  intro r hr
  have hvalue := (isValueText_inQuotes h.2 c).reads (hr.endsValue.stops rfl)
  rw [stringLine_eq, toList_entryLine_append]
  refine reads_inlineEntry h.1.isKeyText.reads ?_ hvalue
  rw [toList_inQuotes_append]
  exact stops_cons rfl _

/-- A table is read as what its entries make. -/
theorem isValueText_inlineText {e : String × String} {es : List (String × String)}
    (h : ∀ e' ∈ e :: es, PlainEntry e') {v : Value}
    (hv : inlineTable? ((e :: es).map stringEntry) = .ok v) :
    IsValueText (valueOf (container (valueOf c))) (inlineText (e :: es)) v where
  opens := ⟨'\x7b', _, (List.append_nil _).symm.trans (toList_inlineText_append e es []), rfl⟩
  reads r _ := by
    have hitems : List.Forall₂ (IsItemText (inlineEntry (valueOf c)))
        ((e :: es).map fun e => (stringLine e.1 e.2).toList) ((e :: es).map stringEntry) := by
      rw [List.forall₂_map_left_iff, List.forall₂_map_right_iff, List.forall₂_same]
      exact fun e he => isItemText_stringEntry (h e he)
    have harray : Misses (array (valueOf c)) ((inlineText (e :: es)).toList ++ r) := by
      rw [toList_inlineText_append]
      exact Misses.bind ⟨_, rfl⟩
    have htable := reads_inlineTable hitems hv r
    rw [← toList_inlineText_append] at htable
    have hcontainer := harray.orElse htable
    rw [toList_inlineText_append] at hcontainer ⊢
    exact hcontainer

end Tables

end WorkspaceAudit.Toml

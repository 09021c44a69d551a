/-
WorkspaceAudit/Proofs/Json/Grammar.lean

What a JSON text says.

`Text s v r` says that `s` starts with a text of the value `v`, and that `r` is
left after it.  The grammar is that of JSON, without regard to how a text is
read: any white space may stand between the parts, any character of a string
may be escaped, and a character beyond sixteen bits is escaped as a pair.  The
parts of lists and of objects are put together alike, so `Listed` is one
relation for both.

A text is told by what it starts with (`Text.opens`), and no text is empty
(`Text.shorter`).
-/
import WorkspaceAudit.Json.Reader

namespace WorkspaceAudit.Json

/-! ### Values -/

/-- A JSON value of any sort; a number stands as it is written. -/
inductive Datum
  | null
  | boolean (b : Bool)
  | number (lexeme : List Char)
  | string (s : String)
  | array (items : List Datum)
  | object (members : List (String × Datum))

/-! ### White space -/

/-- White space leads from the first text to the second. -/
inductive Blank : List Char → List Char → Prop
  | nil {s : List Char} : Blank s s
  | cons {c : Char} {s r : List Char} : c ∈ [' ', '\n', '\r', '\t'] → Blank s r →
      Blank (c :: s) r

/-! ### Strings -/

/-- A digit of base sixteen, with its value. -/
inductive HexDigit : Char → Nat → Prop
  | digit {c : Char} : '0' ≤ c → c ≤ '9' → HexDigit c (c.toNat - '0'.toNat)
  | lower {c : Char} : 'a' ≤ c → c ≤ 'f' → HexDigit c (c.toNat - 'a'.toNat + 10)
  | upper {c : Char} : 'A' ≤ c → c ≤ 'F' → HexDigit c (c.toNat - 'A'.toNat + 10)

/-- Four digits of base sixteen. -/
inductive HexText : List Char → Nat → List Char → Prop
  | mk {a b c d : Char} {i j k l : Nat} {r : List Char} : HexDigit a i → HexDigit b j →
      HexDigit c k → HexDigit d l →
      HexText (a :: b :: c :: d :: r) (((i * 16 + j) * 16 + k) * 16 + l) r

/-- The letters that may stand after a backslash, with what they stand for. -/
def shortEscapes : List (Char × Char) :=
  [('"', '"'), ('\\', '\\'), ('/', '/'), ('b', '\x08'), ('f', '\x0c'), ('n', '\n'), ('r', '\r'),
    ('t', '\t')]

/-- A character of a string. -/
inductive CharText : List Char → Char → List Char → Prop
  | plain {c : Char} {r : List Char} : 0x20 ≤ c.toNat → c ≠ '"' → c ≠ '\\' →
      CharText (c :: r) c r
  | short {e c : Char} {r : List Char} : (e, c) ∈ shortEscapes → CharText ('\\' :: e :: r) c r
  | numbered {n : Nat} {s r : List Char} : HexText s n r → n < 0xD800 ∨ 0xDFFF < n →
      CharText ('\\' :: 'u' :: s) (Char.ofNat n) r
  | pair {n m : Nat} {s s' r : List Char} : HexText s n ('\\' :: 'u' :: s') → HexText s' m r →
      0xD800 ≤ n → n ≤ 0xDBFF → 0xDC00 ≤ m → m ≤ 0xDFFF →
      CharText ('\\' :: 'u' :: s)
        (Char.ofNat (0x10000 + (n - 0xD800) * 0x400 + (m - 0xDC00))) r

/-- The characters of a string up to its end, and the quote that ends it. -/
inductive StringText : List Char → List Char → List Char → Prop
  | nil {r : List Char} : StringText ('"' :: r) [] r
  | cons {c : Char} {cs s s' r : List Char} : CharText s c s' → StringText s' cs r →
      StringText s (c :: cs) r

/-! ### Numbers -/

/-- One digit or more. -/
def Digits (ds : List Char) : Prop :=
  ds ≠ [] ∧ ∀ d ∈ ds, d.isDigit = true

/-- A number: a whole number without needless zeros, and maybe a minus sign, a
fraction and an exponent. -/
structure Numeral (sign whole fraction exponent : List Char) : Prop where
  sign : sign = [] ∨ sign = ['-']
  whole : whole = ['0'] ∨ Digits whole ∧ whole.head? ≠ some '0'
  fraction : fraction = [] ∨ ∃ ds, Digits ds ∧ fraction = '.' :: ds
  exponent : exponent = [] ∨ ∃ e ∈ ['e', 'E'], ∃ below ∈ [[], ['+'], ['-']], ∃ ds,
    Digits ds ∧ exponent = e :: (below ++ ds)

/-! ### Lists and objects -/

/-- What stands before a part: white space, and a comma unless it is the first. -/
inductive Lead : Bool → List Char → List Char → Prop
  | first {s r : List Char} : Blank s r → Lead true s r
  | next {s s' r : List Char} : Blank s (',' :: s') → Blank s' r → Lead false s r

/-- Parts with commas between them, up to the bracket that ends them; `first`
tells whether no part stands before. -/
inductive Listed {α : Type} (P : List Char → α → List Char → Prop) :
    Bool → List Char → List α → List Char → Prop
  | nil {first : Bool} {s r : List Char} : Blank s r → Listed P first s [] r
  | cons {first : Bool} {s s' r r' : List Char} {a : α} {as : List α} : Lead first s s' →
      P s' a r → Listed P false r as r' → Listed P first s (a :: as) r'

/-- A key and its value. -/
inductive Member (P : List Char → Datum → List Char → Prop) :
    List Char → String × Datum → List Char → Prop
  | mk {key : String} {v : Datum} {s r₁ r₂ r₃ r : List Char} : StringText s key.toList r₁ →
      Blank r₁ (':' :: r₂) → Blank r₂ r₃ → P r₃ v r → Member P ('"' :: s) (key, v) r

/-! ### Texts -/

/-- The first text starts with a text of the value, and the second is left. -/
inductive Text : List Char → Datum → List Char → Prop
  | null {r : List Char} : Text ("null".toList ++ r) .null r
  | boolean {b : Bool} {r : List Char} :
      Text ((if b then "true" else "false").toList ++ r) (.boolean b) r
  | number {sign whole fraction exponent r : List Char} :
      Numeral sign whole fraction exponent →
      Text (sign ++ whole ++ fraction ++ exponent ++ r)
        (.number (sign ++ whole ++ fraction ++ exponent)) r
  | string {x : String} {s r : List Char} : StringText s x.toList r →
      Text ('"' :: s) (.string x) r
  | array {vs : List Datum} {s r : List Char} : Listed Text true s vs (']' :: r) →
      Text ('[' :: s) (.array vs) r
  | object {ms : List (String × Datum)} {s r : List Char} :
      Listed (Member Text) true s ms ('\x7d' :: r) → Text ('\x7b' :: s) (.object ms) r

/-- The whole text says the value. -/
def Says (text : String) (v : Datum) : Prop :=
  ∃ s r, Blank text.toList s ∧ Text s v r ∧ Blank r []

/-! ### What a text starts with -/

/-- The characters that a text of the value may start with. -/
def Datum.Opens (v : Datum) (c : Char) : Prop :=
  match v with
  | .null => c = 'n'
  | .boolean b => c = if b then 't' else 'f'
  | .number _ => c = '-' ∨ c.isDigit = true
  | .string _ => c = '"'
  | .array _ => c = '['
  | .object _ => c = '\x7b'

theorem Numeral.opens {sign whole fraction exponent : List Char}
    (h : Numeral sign whole fraction exponent) :
    ∃ c t, sign ++ whole ++ fraction ++ exponent = c :: t ∧ (c = '-' ∨ c.isDigit = true) := by
  rcases h.sign with rfl | rfl
  · rcases h.whole with rfl | ⟨⟨hne, hdigits⟩, -⟩
    · exact ⟨'0', _, rfl, .inr rfl⟩
    · obtain ⟨d, ds, rfl⟩ := List.exists_cons_of_ne_nil hne
      exact ⟨d, _, rfl, .inr (hdigits d List.mem_cons_self)⟩
  · exact ⟨'-', _, rfl, .inl rfl⟩

/-- A text shows by its first character what sort of value it is of. -/
theorem Text.opens {s r : List Char} {v : Datum} (h : Text s v r) :
    ∃ c t, s = c :: t ∧ v.Opens c := by
  cases h with
  | null => exact ⟨'n', _, rfl, rfl⟩
  | @boolean b => cases b <;> exact ⟨_, _, rfl, rfl⟩
  | number hn =>
    obtain ⟨c, t, ht, hc⟩ := hn.opens
    exact ⟨c, t ++ r, by rw [ht, List.cons_append], hc⟩
  | string => exact ⟨'"', _, rfl, rfl⟩
  | array => exact ⟨'[', _, rfl, rfl⟩
  | object => exact ⟨'\x7b', _, rfl, rfl⟩

/-- A quote opens strings alone. -/
theorem Datum.Opens.eq_string {v : Datum} (h : v.Opens '"') : ∃ x, v = .string x := by
  cases v with
  | string x => exact ⟨x, rfl⟩
  | boolean b => cases b <;> cases h
  | number => rcases h with h | h <;> cases h
  | _ => cases h

theorem Datum.Opens.eq_null {v : Datum} (h : v.Opens 'n') : v = .null := by
  cases v with
  | null => rfl
  | boolean b => cases b <;> cases h
  | number => rcases h with h | h <;> cases h
  | _ => cases h

theorem Datum.Opens.eq_array {v : Datum} (h : v.Opens '[') : ∃ vs, v = .array vs := by
  cases v with
  | array vs => exact ⟨vs, rfl⟩
  | boolean b => cases b <;> cases h
  | number => rcases h with h | h <;> cases h
  | _ => cases h

theorem Datum.Opens.eq_object {v : Datum} (h : v.Opens '\x7b') : ∃ ms, v = .object ms := by
  cases v with
  | object ms => exact ⟨ms, rfl⟩
  | boolean b => cases b <;> cases h
  | number => rcases h with h | h <;> cases h
  | _ => cases h

/-! ### Texts of values of one sort -/

theorem Text.of_null {s r : List Char} (h : Text s .null r) : s = "null".toList ++ r := by
  cases h
  rfl

theorem Text.of_string {s r : List Char} {x : String} (h : Text s (.string x) r) :
    ∃ t, s = '"' :: t ∧ StringText t x.toList r := by
  cases h with
  | string hx => exact ⟨_, rfl, hx⟩

theorem Text.of_array {s r : List Char} {vs : List Datum} (h : Text s (.array vs) r) :
    ∃ t, s = '[' :: t ∧ Listed Text true t vs (']' :: r) := by
  cases h with
  | array hvs => exact ⟨_, rfl, hvs⟩

theorem Text.of_object {s r : List Char} {ms : List (String × Datum)}
    (h : Text s (.object ms) r) :
    ∃ t, s = '\x7b' :: t ∧ Listed (Member Text) true t ms ('\x7d' :: r) := by
  cases h with
  | object hms => exact ⟨_, rfl, hms⟩

/-! ### What a text takes -/

theorem Blank.length_le {s r : List Char} (h : Blank s r) : r.length ≤ s.length := by
  induction h with
  | nil => exact Nat.le_refl _
  | cons _ _ ih => exact Nat.le_succ_of_le ih

theorem Lead.length_le {first : Bool} {s r : List Char} (h : Lead first s r) :
    r.length ≤ s.length := by
  cases h with
  | first hb => exact hb.length_le
  | next hb hb' => exact Nat.le_trans hb'.length_le (Nat.le_of_succ_le hb.length_le)

theorem HexText.shorter {s r : List Char} {n : Nat} (h : HexText s n r) :
    r.length < s.length := by
  cases h
  simp only [List.length_cons]
  omega

theorem CharText.shorter {s r : List Char} {c : Char} (h : CharText s c r) :
    r.length < s.length := by
  cases h with
  | plain => exact Nat.lt_succ_self _
  | short => simp only [List.length_cons]; omega
  | numbered hn =>
    have hlt := hn.shorter
    simp only [List.length_cons]
    omega
  | pair hn hm =>
    have hlt := hn.shorter
    have hlt' := hm.shorter
    simp only [List.length_cons] at hlt ⊢
    omega

theorem StringText.shorter {s cs r : List Char} (h : StringText s cs r) :
    r.length < s.length := by
  induction h with
  | nil => exact Nat.lt_succ_self _
  | cons hc _ ih => exact Nat.lt_trans ih hc.shorter

theorem part_shorter {first : Bool} {s s' r r' : List Char} (hl : Lead first s s')
    (hlt : r.length < s'.length) (hle : r'.length ≤ r.length) : r'.length ≤ s.length := by
  have hle' := hl.length_le
  omega

/-- A member takes something if its value does. -/
theorem member_shorter {cs s r₁ r₂ r₃ r : List Char} (hs : StringText s cs r₁)
    (hb : Blank r₁ (':' :: r₂)) (hb' : Blank r₂ r₃) (hlt : r.length < r₃.length) :
    r.length < ('"' :: s).length := by
  have hlt' := hs.shorter
  have hle := hb.length_le
  have hle' := hb'.length_le
  simp only [List.length_cons] at hle ⊢
  omega

/-- A text takes something. -/
theorem Text.shorter {s r : List Char} {v : Datum} (h : Text s v r) : r.length < s.length := by
  -- what lists and objects take is what their parts take
  refine @Text.rec (fun s _ r _ => r.length < s.length) (fun _ s _ r _ => r.length ≤ s.length)
    (fun _ s _ r _ => r.length ≤ s.length) (fun s _ r _ => r.length < s.length)
    ?null ?boolean ?number ?string ?array ?object ?nil ?cons ?nil' ?cons' ?mk s v r h
  case null =>
    intro r
    have hpos : 0 < "null".toList.length := by decide
    rw [List.length_append]
    omega
  case boolean =>
    intro b r
    have hpos : 0 < (if b then "true" else "false").toList.length := by cases b <;> decide
    rw [List.length_append]
    omega
  case number =>
    intro sign whole fraction exponent r hn
    obtain ⟨c, t, ht, -⟩ := hn.opens
    rw [ht]
    simp only [List.length_append, List.length_cons]
    omega
  case string => exact fun hs => Nat.lt_succ_of_lt hs.shorter
  case array =>
    intro vs s r _ ih
    simp only [List.length_cons] at ih ⊢
    omega
  case object =>
    intro ms s r _ ih
    simp only [List.length_cons] at ih ⊢
    omega
  case nil => exact fun hb => hb.length_le
  case nil' => exact fun hb => hb.length_le
  case cons => exact fun hl _ _ ih ih' => part_shorter hl ih ih'
  case cons' => exact fun hl _ _ ih ih' => part_shorter hl ih ih'
  case mk => exact fun hs hb hb' _ ih => member_shorter hs hb hb' ih

end WorkspaceAudit.Json

/-
WorkspaceAudit/Text/Utf8.lean

Bytes and the text they hold.

A file, a file name and a command-line argument are byte strings; the
checks and the reports work on text.  Two decodings join them: `text?`
accepts exactly the bytes that a text encodes to (`text?_eq_some_iff`), and
`shown` always answers, putting U+FFFD in the place of every stretch that
belongs to no character.
-/

namespace WorkspaceAudit

/-- A byte string. -/
abbrev Bytes := List UInt8

namespace Bytes

/-- The UTF-8 encoding of a text. -/
def ofText (s : String) : Bytes :=
  s.toByteArray.data.toList

/-- The text that these bytes encode, if they encode one. -/
def text? (b : Bytes) : Option String :=
  String.fromUTF8? ⟨b.toArray⟩

/-! ### The two directions -/

@[simp] theorem text?_ofText (s : String) : text? (ofText s) = some s := by
  unfold text? ofText String.fromUTF8?
  rw [dif_pos (by simpa using s.isValidUTF8)]
  rfl

theorem eq_ofText_of_text? {b : Bytes} {s : String} (h : text? b = some s) :
    b = ofText s := by
  unfold text? String.fromUTF8? at h
  split at h
  · cases h; rfl
  · cases h

/-- Decoding accepts exactly the encodings. -/
theorem text?_eq_some_iff {b : Bytes} {s : String} :
    text? b = some s ↔ b = ofText s :=
  ⟨eq_ofText_of_text?, fun h => h ▸ text?_ofText s⟩

theorem ofText_injective {s t : String} (h : ofText s = ofText t) : s = t := by
  have := text?_ofText s
  rw [h, text?_ofText] at this
  exact (Option.some.inj this).symm

/-! ### Showing bytes that encode no text -/

/-- The range that the byte after `lead` must lie in, and how many bytes
the character has, for a byte that starts a character of several bytes. -/
def continuation? (lead : UInt8) : Option (UInt8 × UInt8 × Nat) :=
  if 0xC2 ≤ lead && lead ≤ 0xDF then some (0x80, 0xBF, 2)
  else if lead == 0xE0 then some (0xA0, 0xBF, 3)
  else if lead == 0xED then some (0x80, 0x9F, 3)
  else if 0xE1 ≤ lead && lead ≤ 0xEF then some (0x80, 0xBF, 3)
  else if lead == 0xF0 then some (0x90, 0xBF, 4)
  else if lead == 0xF4 then some (0x80, 0x8F, 4)
  else if 0xF1 ≤ lead && lead ≤ 0xF3 then some (0x80, 0xBF, 4)
  else none

/-- How many of these bytes, `lead` not counted, belong to the character
that `lead` starts, as far as they can. -/
def followers (lead : UInt8) (rest : Bytes) : Nat :=
  match continuation? lead, rest with
  | some (low, high, size), c :: rest =>
    if low ≤ c && c ≤ high then
      1 + ((rest.take (size - 2)).takeWhile fun d => 0x80 ≤ d && d ≤ 0xBF).length
    else 0
  | _, _ => 0

/-- Each character of these bytes, and U+FFFD for each longest stretch that
is the start of a character but not all of one, or for a byte that starts
none. -/
def replaced (b : Bytes) : List Char :=
  go b.length b
where
  go : Nat → Bytes → List Char
    | n + 1, lead :: rest =>
      let k := followers lead rest
      let here := lead :: rest.take k
      let shown := match text? here with
        | some s => s.toList
        | none => ['\uFFFD']
      shown ++ go n (rest.drop k)
    | _, _ => []

/-- The bytes as text that can be shown: the text itself if there is one. -/
def shown (b : Bytes) : String :=
  match text? b with
  | some s => s
  | none => String.ofList (replaced b)

@[simp] theorem shown_ofText (s : String) : shown (ofText s) = s := by
  simp [shown]

end Bytes

end WorkspaceAudit

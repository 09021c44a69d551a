/-
WorkspaceAudit/Json/Value.lean

JSON values and the two texts they are written as.

The members of an object are written in the order in which they stand.  In
a string, quotes, backslashes and control characters are escaped and nothing
else.
-/

namespace WorkspaceAudit.Json

/-- A JSON value of the sort that is written here. -/
inductive Value
  | null
  | number (n : Nat)
  | string (s : String)
  | array (items : List Value)
  | object (members : List (String × Value))
  deriving Repr

/-! ### Strings -/

/-- The letter that stands after the backslash for a character that has one. -/
def shortEscape? (c : Char) : Option Char :=
  if c = '"' then some '"'
  else if c = '\\' then some '\\'
  else if c = '\x08' then some 'b'
  else if c = '\x0c' then some 'f'
  else if c = '\n' then some 'n'
  else if c = '\r' then some 'r'
  else if c = '\t' then some 't'
  else none

/-- A digit of base sixteen, lower case. -/
def hexDigit (n : Nat) : Char :=
  if n < 10 then Char.ofNat ('0'.toNat + n) else Char.ofNat ('a'.toNat + (n - 10))

/-- One character of a string. -/
def escape (c : Char) : List Char :=
  match shortEscape? c with
  | some e => ['\\', e]
  | none =>
    if c.toNat < 0x20 then
      ['\\', 'u', '0', '0', hexDigit (c.toNat / 16), hexDigit (c.toNat % 16)]
    else [c]

/-- A string between its quotes. -/
def stringText (s : String) : List Char :=
  '"' :: (s.toList.flatMap escape ++ ['"'])

/-- A number. -/
def numberText (n : Nat) : List Char :=
  Nat.toDigits 10 n

/-! ### On one line -/

/-- Texts with commas between them. -/
def commas : List (List Char) → List Char
  | [] => []
  | [t] => t
  | t :: ts => t ++ ',' :: commas ts

mutual

/-- A value on one line, without blanks. -/
def Value.compact : Value → List Char
  | .null => "null".toList
  | .number n => numberText n
  | .string s => stringText s
  | .array vs => '[' :: (commas (Value.compactItems vs) ++ [']'])
  | .object ms => '\x7b' :: (commas (Value.compactMembers ms) ++ ['\x7d'])

/-- The items of an array. -/
def Value.compactItems : List Value → List (List Char)
  | [] => []
  | v :: vs => v.compact :: Value.compactItems vs

/-- The members of an object. -/
def Value.compactMembers : List (String × Value) → List (List Char)
  | [] => []
  | (k, v) :: ms => (stringText k ++ ':' :: v.compact) :: Value.compactMembers ms

end

/-! ### On lines of their own -/

/-- The start of a line at a depth. -/
def indent (depth : Nat) : List Char :=
  '\n' :: List.replicate (2 * depth) ' '

/-- What stands between brackets: each part on a line of its own, one level
deeper than the brackets; nothing if there is no part. -/
def lines (depth : Nat) : List (List Char) → List Char
  | [] => []
  | ts => indent (depth + 1) ++ between ts ++ indent depth
where
  /-- Parts with a comma and a new line between them. -/
  between : List (List Char) → List Char
    | [] => []
    | [t] => t
    | t :: ts => t ++ ',' :: (indent (depth + 1) ++ between ts)

mutual

/-- A value that starts at a depth, each item and member on a line. -/
def Value.pretty (depth : Nat) : Value → List Char
  | .null => "null".toList
  | .number n => numberText n
  | .string s => stringText s
  | .array vs => '[' :: (lines depth (Value.prettyItems (depth + 1) vs) ++ [']'])
  | .object ms => '\x7b' :: (lines depth (Value.prettyMembers (depth + 1) ms) ++ ['\x7d'])

/-- The items of an array. -/
def Value.prettyItems (depth : Nat) : List Value → List (List Char)
  | [] => []
  | v :: vs => v.pretty depth :: Value.prettyItems depth vs

/-- The members of an object. -/
def Value.prettyMembers (depth : Nat) : List (String × Value) → List (List Char)
  | [] => []
  | (k, v) :: ms =>
    (stringText k ++ ':' :: ' ' :: v.pretty depth) :: Value.prettyMembers depth ms

end

end WorkspaceAudit.Json

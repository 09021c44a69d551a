/-
WorkspaceAudit/Json/Fault.lean

Why a JSON text is refused, and where.

A place is told by line and column, both in bytes.  A fault in the text has
its place from the start.  A fault in what the text says, such as an unknown
key, gets one only when the brackets around it are left: the place is then
just after them, as far as they could be closed.
-/
import WorkspaceAudit.Decimal.Shortest
import WorkspaceAudit.Text.Lines

namespace WorkspaceAudit.Json

/-! ### Problems -/

/-- A value that was found where another sort of value was wanted. -/
inductive Found
  | null
  | boolean (b : Bool)
  | integer (n : Int)
  | float (x : Binary64)
  | string (s : String)
  | sequence
  | map
  deriving DecidableEq, Repr

/-- What is wrong with a text. -/
inductive Problem
  | endInValue
  | endInObject
  | endInList
  | endInString
  | keyNotString
  | trailingComma
  | trailingCharacters
  | colonExpected
  | objectCommaExpected
  | listCommaExpected
  | valueExpected
  | wordExpected
  | invalidNumber
  | numberOutOfRange
  | controlCharacter
  | invalidEscape
  | loneSurrogate
  | hexEscapeEnded
  | unknownField (key : String) (fields : List String)
  | duplicateField (key : String)
  | missingField (key : String)
  | invalidLength (length : Nat) (wanted : String)
  | invalidType (found : Found) (wanted : String)
  /-- A name stands twice in a table of expectations. -/
  | repeatedName (message : String)
  deriving DecidableEq, Repr

/-- Where a text was refused: what was left of it, and how many bytes of
that had been looked at.  A fault that is not settled has no place yet. -/
structure Fault where
  problem : Problem
  rest : List Char
  beyond : Nat
  settled : Bool
  deriving DecidableEq, Repr

/-- A fault just after what was consumed. -/
def Fault.at (rest : List Char) (p : Problem) : Fault :=
  ⟨p, rest, 0, true⟩

/-- A fault just after the next byte, if there is one. -/
def Fault.after (rest : List Char) (p : Problem) : Fault :=
  ⟨p, rest, if rest.isEmpty then 0 else 1, true⟩

/-- A fault in what the text says. -/
def Fault.unsettled (rest : List Char) (p : Problem) : Fault :=
  ⟨p, rest, 0, false⟩

/-! ### Places -/

/-- A line, from one, and the bytes of that line before the place. -/
structure Position where
  line : Nat
  column : Nat
  deriving DecidableEq, Repr

/-- The position so many bytes into a text, from the one at its start. -/
def Position.advance : Position → Nat → List Char → Position
  | p, 0, _ => p
  | p, _ + 1, [] => p
  | p, n + 1, c :: cs =>
    if c = '\n' then advance ⟨p.line + 1, 0⟩ n cs
    else if c.utf8Size ≤ n + 1 then
      advance { p with column := p.column + c.utf8Size } (n + 1 - c.utf8Size) cs
    else { p with column := p.column + (n + 1) }

/-- The position of a fault in the text that was read. -/
def Fault.position (text : List Char) (f : Fault) : Position :=
  Position.advance ⟨1, 0⟩ (Text.byteSize text - Text.byteSize f.rest + f.beyond) text

/-! ### Words -/

/-- A float: the shortest digits that read back; with an exponent from ten
to the sixteenth upwards and below ten to the minus fifth. -/
def floatText : Binary64 → List Char
  | .nan => "nan".toList
  | .infinite negative => (if negative then ['-'] else []) ++ "inf".toList
  | .finite negative m e =>
    (if negative then ['-'] else []) ++
      if m = 0 then "0.0".toList
      else
        let d := Decimal.shortest m e
        let (cs, point) := d.pointed
        if -5 < point && point ≤ 16 then
          if cs.length ≤ point.toNat then d.positional ++ ".0".toList else d.positional
        else
          let power := point - 1
          (match cs with
            | [] => []
            | [c] => [c]
            | c :: cs => c :: '.' :: cs) ++
          'e' :: (if power < 0 then '-' else '+') :: Nat.toDigits 10 power.natAbs

/-- A sort of value in words, with the value if it is a scalar. -/
def Found.text (quote : String → String) : Found → String
  | null => "null"
  | boolean b => "boolean `" ++ toString b ++ "`"
  | integer n => "integer `" ++ toString n ++ "`"
  | float x => "floating point `" ++ String.ofList (floatText x) ++ "`"
  | string s => "string " ++ quote s
  | sequence => "sequence"
  | map => "map"

/-- A problem in words, where `quote` puts a string between quotes. -/
def Problem.text (quote : String → String) : Problem → String
  | endInValue => "EOF while parsing a value"
  | endInObject => "EOF while parsing an object"
  | endInList => "EOF while parsing a list"
  | endInString => "EOF while parsing a string"
  | keyNotString => "key must be a string"
  | trailingComma => "trailing comma"
  | trailingCharacters => "trailing characters"
  | colonExpected => "expected `:`"
  | objectCommaExpected => "expected `,` or `\x7d`"
  | listCommaExpected => "expected `,` or `]`"
  | valueExpected => "expected value"
  | wordExpected => "expected ident"
  | invalidNumber => "invalid number"
  | numberOutOfRange => "number out of range"
  | controlCharacter =>
    "control character (\\u0000-\\u001F) found while parsing a string"
  | invalidEscape => "invalid escape"
  | loneSurrogate => "lone leading surrogate in hex escape"
  | hexEscapeEnded => "unexpected end of hex escape"
  | unknownField key fields =>
    "unknown field `" ++ key ++ "`, expected one of " ++
      ", ".intercalate (fields.map fun f => "`" ++ f ++ "`")
  | duplicateField key => "duplicate field `" ++ key ++ "`"
  | missingField key => "missing field `" ++ key ++ "`"
  | invalidLength n wanted => "invalid length " ++ toString n ++ ", expected " ++ wanted
  | invalidType found wanted =>
    "invalid type: " ++ found.text quote ++ ", expected " ++ wanted
  | repeatedName message => message

end WorkspaceAudit.Json

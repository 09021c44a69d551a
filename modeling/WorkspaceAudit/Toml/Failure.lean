/-
WorkspaceAudit/Toml/Failure.lean

Why a text is not a TOML document.

A failure says what was being read, what could have stood there and, where
the text was well formed but means nothing, the cause.  It also keeps what
was left of the text at the place of the failure, which gives the line.
-/
import WorkspaceAudit.Toml.Value

namespace WorkspaceAudit.Toml

/-! ### Keys in messages -/

/-- Whether a character may stand in a key without quotes. -/
def isBareKeyChar (c : Char) : Bool :=
  c.isAlphanum || c == '-' || c == '_'

/-- Whether a key may stand without quotes. -/
def isBareKey (key : List Char) : Bool :=
  !key.isEmpty && key.all isBareKeyChar

/-- Whether a key has a character that no form of quotes shows as it is. -/
def isControl (c : Char) : Bool :=
  c.toNat < 0x20 || c.toNat == 0x7F

/-- A number in base sixteen, upper case, with zeros in front up to four
digits. -/
def hexFour (n : Nat) : List Char :=
  let cs := (Nat.toDigits 16 n).map Char.toUpper
  List.replicate (4 - cs.length) '0' ++ cs

/-- One character between double quotes on one line. -/
def escapeChar (c : Char) : List Char :=
  if c = '\x08' then ['\\', 'b']
  else if c = '\t' then ['\\', 't']
  else if c = '\n' then ['\\', 'n']
  else if c = '\x0c' then ['\\', 'f']
  else if c = '\r' then ['\\', 'r']
  else if c = '"' then ['\\', '"']
  else if c = '\\' then ['\\', '\\']
  else if isControl c then '\\' :: 'u' :: hexFour c.toNat
  else [c]

/-- A text between double quotes on one line. -/
def basicText (cs : List Char) : List Char :=
  '"' :: (cs.flatMap escapeChar ++ ['"'])

/-- A key as it is written: bare; else between double quotes; between
single ones if it has characters that would have to be escaped and single
quotes show it as it is. -/
def keyText (key : String) : List Char :=
  let cs := key.toList
  let plain := cs.all fun c => !isControl c || c == '\t'
  let escapes := cs.any fun c => c == '\\' || c == '"'
  if isBareKey cs then cs
  else if plain && escapes && cs.all (· != '\x27') then '\x27' :: (cs ++ ['\x27'])
  else basicText cs

/-! ### Failures -/

/-- A reason why well-formed text means nothing. -/
inductive Cause
  /-- A key is given twice, or belongs to a table that is closed. -/
  | repeatedKey (key : String)
  /-- A key is given twice in the table of a header. -/
  | repeatedIn (header : List String) (key : String)
  /-- A header names a table that is already there. -/
  | repeatedHeader (parent : List String) (key : String)
  /-- A path leads through a value that is no table. -/
  | notATable (path : List String) (kind : String)
  /-- A number of a date, a time or a character does not exist. -/
  | outOfRange
  /-- An integer lies above 64 bits. -/
  | tooLarge
  /-- An integer lies below 64 bits. -/
  | tooSmall
  /-- Nested too deep, or a key of too many parts. -/
  | tooDeep
  deriving DecidableEq, Repr

/-- The keys of a path with points between them. -/
def dottedPath (path : List String) : String :=
  ".".intercalate path

/-- The table of a path in words. -/
def placeText : List String → String
  | [] => "document root"
  | path => "table `" ++ dottedPath path ++ "`"

/-- The cause in words. -/
def Cause.message : Cause → String
  | repeatedKey key => "duplicate key `" ++ key ++ "`"
  | repeatedIn header key => "duplicate key `" ++ key ++ "` in " ++ placeText header
  | repeatedHeader parent key =>
    "duplicate key `" ++ String.ofList (keyText key) ++ "` in " ++ placeText parent
  | notATable path kind =>
    "dotted key `" ++ dottedPath path ++ "` attempted to extend non-table type (" ++
      kind ++ ")"
  | outOfRange => "value is out of range"
  | tooLarge => "number too large to fit in target type"
  | tooSmall => "number too small to fit in target type"
  | tooDeep => "recursion limit exceeded"

/-- Something that could have stood at the place of a failure. -/
inductive Expected
  /-- These very characters. -/
  | sign (text : String)
  /-- Something described in words. -/
  | described (words : String)
  deriving DecidableEq, Repr

/-- An expected thing in words. -/
def Expected.text : Expected → String
  | sign t => "`" ++ t ++ "`"
  | described w => w

/-- Why reading failed, and what was left of the text there. -/
structure Failure where
  /-- What was being read, the innermost first. -/
  labels : List String
  expected : List Expected
  cause? : Option Cause
  rest : List Char
  deriving DecidableEq, Repr

/-- A failure of which nothing more is known than the place. -/
def Failure.at (rest : List Char) : Failure :=
  ⟨[], [], none, rest⟩

/-- The failure in words: what was being read, what was expected and the
cause, on a line each, as far as they are known. -/
def Failure.message (f : Failure) : String :=
  let invalid := match f.labels with
    | [] => []
    | l :: _ => ["invalid " ++ l]
  let expected := match f.expected with
    | [] => []
    | es => ["expected " ++ ", ".intercalate (es.map Expected.text)]
  let cause := match f.cause? with
    | none => []
    | some c => [c.message]
  "\n".intercalate (invalid ++ expected ++ cause)

end WorkspaceAudit.Toml

/-
WorkspaceAudit/Toml/Text.lean

Reading the strings of a TOML document, and its keys.

A string stands between double or single quotes, one or three of each.
Double quotes allow escapes; three quotes allow line feeds, of which one
right after the opening quotes is left out.
-/
import WorkspaceAudit.Toml.Reader

namespace WorkspaceAudit.Toml

open Reader

/-! ### White space -/

/-- White space within a line. -/
def isBlank (c : Char) : Bool :=
  c == ' ' || c == '\t'

/-- Skips white space within the line. -/
def blanks : Reader Unit :=
  fun s => .done () (s.dropWhile isBlank)

/-- The end of a line: a line feed, or a carriage return and a line feed. -/
def lineFeed : Reader Unit
  | '\n' :: r => .done () r
  | '\r' :: '\n' :: r => .done () r
  | s => .miss (.at s)

/-- Drops blanks and line ends. -/
def dropSpace : List Char → List Char
  | '\r' :: '\n' :: r => dropSpace r
  | c :: r => if c == '\n' || isBlank c then dropSpace r else c :: r
  | [] => []

/-! ### Escapes -/

/-- Whether a character may stand in a string as it is, quotes and
backslash apart. -/
def isPrintable (c : Char) : Bool :=
  c == '\t' || 0x20 ≤ c.toNat && c.toNat != 0x7F

/-- Whether a character stands for itself between double quotes. -/
def isPlain (c : Char) : Bool :=
  isPrintable c && c != '"' && c != '\\'

/-- Whether a character stands for itself between single quotes. -/
def isLiteral (c : Char) : Bool :=
  isPrintable c && c != '\x27'

/-- Whether a character is a digit in base sixteen. -/
def isHexDigit (c : Char) : Bool :=
  c.isDigit || 'a' ≤ c && c ≤ 'f' || 'A' ≤ c && c ≤ 'F'

/-- The value of a digit, of base sixteen at most. -/
def digitValue (c : Char) : Nat :=
  if c.isDigit then c.toNat - '0'.toNat
  else if 'a' ≤ c then c.toNat - 'a'.toNat + 10
  else c.toNat - 'A'.toNat + 10

/-- The number that digits write in a base. -/
def ofDigits (base : Nat) (ds : List Char) : Nat :=
  ds.foldl (fun n d => n * base + digitValue d) 0

/-- The character whose code has exactly these many digits of base sixteen. -/
def codePoint (digits : Nat) : Reader Char :=
  fun s =>
    let ds := s.take digits
    if ds.length = digits && ds.all isHexDigit then
      let n := ofDigits 16 ds
      if n.isValidChar then .done (Char.ofNat n) (s.drop digits) else refuse .outOfRange s
    else .miss (.at s)

/-- The character that a letter after a backslash stands for. -/
def escapeOf? (c : Char) : Option Char :=
  if c = 'b' then some '\x08'
  else if c = 'f' then some '\x0c'
  else if c = 'n' then some '\n'
  else if c = 'r' then some '\r'
  else if c = 't' then some '\t'
  else if c = '\\' then some '\\'
  else if c = '"' then some '"'
  else none

/-- What may follow a backslash. -/
def escapeLetters : List Expected :=
  ["b", "f", "n", "r", "t", "u", "U", "\\", "\""].map Expected.sign

/-- What follows a backslash. -/
def escape : Reader Char
  | [] => .miss (.at [])
  | c :: r =>
    match escapeOf? c with
    | some e => .done e r
    | none =>
      if c = 'u' then (firm (codePoint 4)).label "unicode 4-digit hex code" r
      else if c = 'U' then (firm (codePoint 8)).label "unicode 8-digit hex code" r
      else .stop { Failure.at r with labels := ["escape sequence"], expected := escapeLetters }

/-- What is left after a backslash at the end of a line, the blanks and line
ends after it included, if the backslash stands there. -/
def continued? (s : List Char) : Option (List Char) :=
  match lineFeed (s.dropWhile isBlank) with
  | .done _ r => some (dropSpace r)
  | _ => none

/-! ### Double quotes -/

/-- The closing quotes are missing. -/
def unclosed (form : String) (s : List Char) : Outcome String :=
  .stop { Failure.at s with labels := [form] }

/-- The string from its reversed start and what is left of the text. -/
def closed (reversed : List Char) (rest : List Char) : Outcome String :=
  .done (String.ofList reversed.reverse) rest

/-- A string between double quotes, from after the opening one.  The number
bounds the rounds, each of which consumes something. -/
def basicFrom : Nat → List Char → Reader String
  | n + 1, soFar, c :: r =>
    if isPlain c then basicFrom n (c :: soFar) r
    else if c = '"' then closed soFar r
    else if c = '\\' then
      match escape r with
      | .done e r' => basicFrom n (e :: soFar) r'
      | .miss _ => unclosed "basic string" (c :: r)
      | .stop e => .stop e
    else unclosed "basic string" (c :: r)
  | _, _, s => unclosed "basic string" s

/-- A string between double quotes on one line. -/
def basic : Reader String
  | '"' :: r => basicFrom (r.length + 1) [] r
  | s => .miss (.at s)

/-- What a quote in a string between triple quotes is: one of its own, or
the end, with so many quotes before it. -/
inductive QuoteRole
  | own
  | closing (before : Nat) (rest : List Char)
  | unclosed

/-- The role of a quote that these characters follow.  The string ends at
the last three of a row of three to five quotes. -/
def quoteRole (q : Char) : List Char → QuoteRole
  | a :: b :: r =>
    if a = q && b = q then
      match r with
      | c :: d :: r' =>
        if c = q && d = q then .closing 2 r' else if c = q then .closing 1 (d :: r')
        else .closing 0 r
      | [c] => if c = q then .closing 1 [] else .closing 0 r
      | [] => .closing 0 []
    else .own
  | [a] => if a = q then .unclosed else .own
  | [] => .unclosed

/-- A string between triple double quotes, from after the opening ones.  The
number bounds the rounds, each of which consumes something. -/
def basicBlockFrom : Nat → List Char → Reader String
  | n + 1, soFar, c :: r =>
    if isPlain c then basicBlockFrom n (c :: soFar) r
    else if c = '"' then
      match quoteRole '"' r with
      | .own => basicBlockFrom n (c :: soFar) r
      | .closing before rest => closed (List.replicate before c ++ soFar) rest
      | .unclosed => unclosed "multiline basic string" (c :: r)
    else if c = '\\' then
      match continued? r with
      | some r' => basicBlockFrom n soFar r'
      | none =>
        match escape r with
        | .done e r' => basicBlockFrom n (e :: soFar) r'
        | .miss _ => unclosed "multiline basic string" (c :: r)
        | .stop e => .stop { e with labels := e.labels ++ ["multiline basic string"] }
    else
      match lineFeed (c :: r) with
      | .done _ r' => basicBlockFrom n ('\n' :: soFar) r'
      | _ => unclosed "multiline basic string" (c :: r)
  | _, _, s => unclosed "multiline basic string" s

/-- The text without one line end at its start. -/
def dropLineFeed (s : List Char) : List Char :=
  match lineFeed s with
  | .done _ r => r
  | _ => s

/-- A string between triple double quotes. -/
def basicBlock : Reader String :=
  fun s =>
    match dropStart? ['"', '"', '"'] s with
    | some r =>
      let r := dropLineFeed r
      basicBlockFrom (r.length + 1) [] r
    | none => .miss (.at s)

/-! ### Single quotes -/

/-- A string between single quotes on one line. -/
def literal : Reader String :=
  label "literal string" fun s =>
    match s with
    | '\x27' :: r =>
      match r.dropWhile isLiteral with
      | '\x27' :: r' => .done (String.ofList (r.takeWhile isLiteral)) r'
      | r' => .stop (.at r')
    | s => .miss (.at s)

/-- A string between triple single quotes, from after the opening ones.  The
number bounds the rounds, each of which consumes something. -/
def literalBlockFrom : Nat → List Char → Reader String
  | n + 1, soFar, c :: r =>
    if isLiteral c then literalBlockFrom n (c :: soFar) r
    else if c = '\x27' then
      match quoteRole '\x27' r with
      | .own => literalBlockFrom n (c :: soFar) r
      | .closing before rest => closed (List.replicate before c ++ soFar) rest
      | .unclosed => unclosed "multiline literal string" (c :: r)
    else
      match lineFeed (c :: r) with
      | .done _ r' => literalBlockFrom n ('\n' :: soFar) r'
      | _ => unclosed "multiline literal string" (c :: r)
  | _, _, s => unclosed "multiline literal string" s

/-- A string between triple single quotes. -/
def literalBlock : Reader String :=
  fun s =>
    match dropStart? ['\x27', '\x27', '\x27'] s with
    | some r =>
      let r := dropLineFeed r
      literalBlockFrom (r.length + 1) [] r
    | none => .miss (.at s)

/-- A string of any of the four forms. -/
def text : Reader String :=
  basicBlock |>.orElse basic |>.orElse literalBlock |>.orElse literal

/-! ### Keys -/

/-- A dotted key: the tables it leads through and the last name. -/
structure KeyPath where
  parents : List String
  last : String
  deriving DecidableEq, Repr

/-- All names of a dotted key. -/
def KeyPath.names (k : KeyPath) : List String :=
  k.parents ++ [k.last]

/-- One name of a key: quoted on one line, or bare. -/
def simpleKey : Reader String
  | '"' :: r => basic ('"' :: r)
  | '\x27' :: r => literal ('\x27' :: r)
  | s => (do return String.ofList (← many1 isBareKeyChar)) s

/-- The most names that a dotted key may have. -/
def keyLimit : Nat := 79

/-- A key of names with points between them. -/
def key : Reader KeyPath :=
  label "key" (separated (do blanks; let k ← simpleKey; blanks; return k) (sign '.'))
    |>.checked fun names =>
      match names.getLast? with
      | some last =>
        if names.length ≤ keyLimit then .ok ⟨names.dropLast, last⟩ else .error .tooDeep
      | none => .error .tooDeep

end WorkspaceAudit.Toml

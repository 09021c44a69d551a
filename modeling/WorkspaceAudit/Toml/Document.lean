/-
WorkspaceAudit/Toml/Document.lean

Reading a whole TOML document.

A document is a list of items, each on lines of its own: a comment, a
header or a key with a value.  Arrays and inline tables nest to a bounded
depth, and `value` is defined by recursion on what is left of it.
-/
import WorkspaceAudit.Text.Lines
import WorkspaceAudit.Toml.Number
import WorkspaceAudit.Toml.Draft

namespace WorkspaceAudit.Toml

open Reader

/-! ### Comments and line ends -/

/-- Whether a character may stand in a comment. -/
def isCommentChar (c : Char) : Bool :=
  isPrintable c

/-- A comment, to the end of its line. -/
def comment : Reader Unit := do
  sign '#'
  let _ ← many isCommentChar

/-- The end of a line or of the text. -/
def lineEnd : Reader Unit :=
  lineFeed.orElse finish

/-- What may follow the last thing of a line. -/
def lineRest : Reader Unit := do
  blanks
  let _ ← optional comment
  lineEnd

/-- A line end or a comment was expected. -/
def lineRestExpected : List Expected :=
  [.described "newline", .sign "#"]

/-- Skips white space, line ends and comments; `inComment` tells whether the
text starts within a comment.  A comment must end with its line. -/
def skipLines : Bool → Reader Unit
  | _, '\n' :: r => skipLines false r
  | _, '\r' :: '\n' :: r => skipLines false r
  | inComment, c :: r =>
    if inComment then
      if isCommentChar c then skipLines true r else .miss (.at (c :: r))
    else if isBlank c then skipLines false r
    else if c = '#' then skipLines true r
    else if c = '\r' then .miss (.at (c :: r))
    else .done () (c :: r)
  | inComment, [] => if inComment then .miss (.at []) else .done () []

/-! ### Values -/

/-- The values of an array, after its opening bracket. -/
def arrayValues (value : Reader Value) : Reader (List Value)
  | ']' :: r => .done [] (']' :: r)
  | s => (do
      let element : Reader Value := do
        skipLines false
        let v ← value
        skipLines false
        return v
      let vs ← separatedOrNone element (sign ',')
      if !vs.isEmpty then
        let _ ← optional (sign ',')
      skipLines false
      return vs : Reader (List Value)) s

/-- An array. -/
def array (value : Reader Value) : Reader Value := do
  sign '['
  let vs ← firm (arrayValues value)
  firm (label "array" (expecting [.sign "]"] (sign ']')))
  return .array vs

/-- The equals sign after a key. -/
def equals : Reader Unit :=
  expecting [.sign ".", .sign "="] (sign '=')

/-- A key and its value in an inline table. -/
def inlineEntry (value : Reader Value) : Reader (KeyPath × Value) := do
  let k ← key
  firm do
    equals
    blanks
    let v ← value
    blanks
    return (k, v)

/-- An inline table. -/
def inlineTable (value : Reader Value) : Reader Value := do
  sign '\x7b'
  firm do
    let v ← (do
      let entries ← separatedOrNone (inlineEntry value) (sign ',')
      blanks
      return entries : Reader _).checked inlineTable?
    firm (label "inline table" (expecting [.sign "\x7d"] (sign '\x7d')))
    return v

/-- What a value that starts with no digit, bracket or sign can be. -/
def word (p : Reader Value) : Reader Value :=
  label "string" (expecting [.sign "\"", .sign "\x27"] p)

/-- A value, where `container` reads one between brackets or braces. -/
def valueOf (container : Reader Value) : Reader Value
  | [] => .miss (.at [])
  | c :: r =>
    if c = '"' || c = '\x27' then (do return .string (← text) : Reader Value) (c :: r)
    else if c = '[' || c = '\x7b' then container (c :: r)
    else if c = '+' || c = '-' || c.isDigit then
      ((do return .datetime (← datetime) : Reader Value) |>.orElse float
        |>.orElse integer) (c :: r)
    else if c = '_' then expecting [.described "leading digit"] integer (c :: r)
    else if c = '.' then expecting [.described "leading digit"] float (c :: r)
    else if c = 't' then
      word (firm do signs "true".toList; return .boolean true) (c :: r)
    else if c = 'f' then
      word (firm do signs "false".toList; return .boolean false) (c :: r)
    else if c = 'i' then
      word (do signs "inf".toList; return .float (.infinite false)) (c :: r)
    else if c = 'n' then
      word (do signs "nan".toList; return .float .nan) (c :: r)
    else word fail (c :: r)

/-- An array or an inline table. -/
def container (value : Reader Value) : Reader Value :=
  (array value).orElse (inlineTable value)

/-- A value in which arrays and inline tables nest at most so deep. -/
def value : Nat → Reader Value
  | 0 => valueOf (firm (refuse .tooDeep))
  | depth + 1 => valueOf (container (value depth))

/-- The depth to which arrays and inline tables may nest. -/
def depthLimit : Nat := 79

/-! ### Items -/

/-- A key and its value on a line. -/
def entry (d : Draft) : Reader Draft :=
  (do
    let k ← key
    firm do
      equals
      blanks
      let v ← value depthLimit
      expecting lineRestExpected lineRest
      return (k, v) : Reader (KeyPath × Value)).checked fun e => d.insert e.1 e.2

/-- A header between the brackets, which opens a table. -/
def bracketed (opening closing : String) (enter : KeyPath → Except Cause Draft) :
    Reader Draft :=
  (do
    signs opening.toList
    let k ← firm key
    firm (expecting [.sign ".", .sign closing] (signs closing.toList))
    firm (expecting lineRestExpected lineRest)
    return k : Reader KeyPath).checked enter

/-- A header. -/
def header (d : Draft) : Reader Draft :=
  label "table header" fun s =>
    match s with
    | '[' :: '[' :: _ => bracketed "[[" "]]" d.openElement s
    | _ :: _ :: _ => bracketed "[" "]" d.openTable s
    | _ => .miss (.at s)

/-- One item of a document. -/
def item (d : Draft) : Reader Draft
  | [] => .miss (.at [])
  | '#' :: r => firm (do comment; lineEnd; return d) ('#' :: r)
  | '[' :: r => firm (header d) ('[' :: r)
  | '\n' :: r => .done d r
  | '\r' :: r => (do lineFeed; return d : Reader Draft) ('\r' :: r)
  | s => firm (entry d) s

/-- Reads items as long as there are any.  The number bounds them: each
consumes something. -/
def items : Nat → Draft → Reader Draft
  | 0, d, s => .done d s
  | n + 1, d, s =>
    match item d s with
    | .done d' r => items n d' (r.dropWhile isBlank)
    | .miss _ => .done d s
    | .stop e => .stop e

/-- A whole document. -/
def document : Reader Value := do
  let _ ← optional (sign '\uFEFF')
  blanks
  let d ← fun s => items s.length .empty s
  finish
  return d.value

/-! ### Texts -/

/-- Why a text is no document, and the byte at which that shows, if one is
known. -/
structure ParseError where
  message : String
  offset? : Option Nat
  deriving DecidableEq, Repr

/-- The value of the document that a text writes. -/
def parse (s : String) : Except ParseError Value :=
  let cs := s.toList
  let failed (f : Failure) : Except ParseError Value :=
    .error ⟨f.message, some (Text.byteSize cs - Text.byteSize f.rest)⟩
  match document cs with
  | .done v _ => .ok v
  | .miss f => failed f
  | .stop f => failed f

end WorkspaceAudit.Toml

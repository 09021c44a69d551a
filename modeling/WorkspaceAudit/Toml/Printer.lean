/-
WorkspaceAudit/Toml/Printer.lean

The text that a value is written as.

Of the forms of quotes the plainest is taken that leaves the string as it
stands; only where none does are characters escaped.
-/
import WorkspaceAudit.Toml.Draft
import WorkspaceAudit.Decimal.Shortest

namespace WorkspaceAudit.Toml

/-! ### Numbers -/

/-- A float: the shortest digits that read back, without an exponent and
always with a point. -/
def floatText : Binary64 → List Char
  | .nan => "nan".toList
  | .infinite negative => (if negative then ['-'] else []) ++ "inf".toList
  | .finite negative m e =>
    (if negative then ['-'] else []) ++
      if m = 0 then "0.0".toList
      else
        let cs := (Decimal.shortest m e).positional
        if (Binary64.finite negative m e).isWhole then cs ++ ".0".toList else cs

/-! ### Strings -/

/-- The length of the longest row of a character. -/
def longestRow (c : Char) (cs : List Char) : Nat :=
  (cs.foldl (fun (longest, row) d =>
    if d = c then (max longest (row + 1), row + 1) else (longest, 0)) (0, 0)).1

/-- The characters between triple double quotes: line feeds stand as they
are, and of each three quotes in a row the third is escaped.  `row` is the
number of quotes before. -/
def blockBody : Nat → List Char → List Char
  | _, [] => []
  | row, c :: cs =>
    if c = '"' then
      if row = 2 then '\\' :: '"' :: blockBody 0 cs else '"' :: blockBody (row + 1) cs
    else if c = '\n' then '\n' :: blockBody 0 cs
    else escapeChar c ++ blockBody 0 cs

/-- A text between triple quotes.  One of several lines starts on a line of
its own. -/
def blockText (quote : Char) (lines : Bool) (body : List Char) : List Char :=
  let quotes := List.replicate 3 quote
  quotes ++ (if lines then ['\n'] else []) ++ body ++ quotes

/-- A string, in the first of the forms that suits it: double quotes if
nothing but a tab is escaped, single ones, three of either sort, and else
double quotes with escapes. -/
def stringText (cs : List Char) : List Char :=
  let control := cs.any fun c => isControl c && c != '\t' && c != '\n'
  let backslash := cs.contains '\\'
  let lines := cs.contains '\n'
  let double := longestRow '"' cs
  let single := longestRow '\x27' cs
  if !control && !backslash && double == 0 && !lines then basicText cs
  else if !control && single == 0 && !lines then '\x27' :: (cs ++ ['\x27'])
  else if !control && !backslash && double ≤ 2 then blockText '"' lines (blockBody 0 cs)
  else if !control && single ≤ 2 then blockText '\x27' lines cs
  else if lines then blockText '"' lines (blockBody 0 cs)
  else basicText cs

/-! ### Values -/

/-- Texts with a comma and a blank between them. -/
def commaSeparated : List (List Char) → List Char
  | [] => []
  | [t] => t
  | t :: ts => t ++ ',' :: ' ' :: commaSeparated ts

mutual

/-- A value as it stands in an array or a table. -/
def Value.text : Value → List Char
  | .string s => stringText s.toList
  | .integer n => (toString n).toList
  | .float x => floatText x
  | .boolean b => (toString b).toList
  | .datetime d => d.text
  | .array vs => '[' :: (commaSeparated (Value.texts vs) ++ [']'])
  | .table fs =>
    match Value.fieldTexts fs with
    | [] => "\x7b\x7d".toList
    | ts => '\x7b' :: ' ' :: (commaSeparated ts ++ [' ', '\x7d'])

/-- The texts of values. -/
def Value.texts : List Value → List (List Char)
  | [] => []
  | v :: vs => v.text :: Value.texts vs

/-- The texts of fields, each a key, an equals sign and a value. -/
def Value.fieldTexts : List (String × Value) → List (List Char)
  | [] => []
  | (k, v) :: fs => (keyText k ++ ' ' :: '=' :: ' ' :: v.text) :: Value.fieldTexts fs

end

/-- A value that stands alone: a date or time is written as the table that
stands for it. -/
def Value.aloneText : Value → List Char
  | .datetime d => (Value.table [(Fields.datetimeKey, .string (String.ofList d.text))]).text
  | v => v.text

end WorkspaceAudit.Toml

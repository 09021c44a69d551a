/-
WorkspaceAudit/Toml/Number.lean

Reading the numbers of a TOML document.

A single underscore may stand between two digits.  An integer must fit in 64
bits with a sign; a number with a fraction or an exponent is the nearest one
of the binary format.
-/
import WorkspaceAudit.Toml.Text

namespace WorkspaceAudit.Toml

open Reader

/-- A digit was expected. -/
def digitExpected : List Expected :=
  [.described "digit"]

/-! ### Digits -/

/-- The digits from here on, from those read so far (the last first).  After
an underscore there must be one. -/
def digitsFrom (isDigit : Char → Bool) : List Char → Reader (List Char)
  | soFar, '_' :: d :: r =>
    if isDigit d then digitsFrom isDigit (d :: soFar) r
    else .stop { Failure.at (d :: r) with expected := digitExpected }
  | _, ['_'] => .stop { Failure.at [] with expected := digitExpected }
  | soFar, d :: r =>
    if isDigit d then digitsFrom isDigit (d :: soFar) r else .done soFar.reverse (d :: r)
  | soFar, [] => .done soFar.reverse []

/-- One digit or more. -/
def digits (isDigit : Char → Bool) : Reader (List Char)
  | d :: r => if isDigit d then digitsFrom isDigit [d] r else .miss (.at (d :: r))
  | [] => .miss (.at [])

/-- A sign or none; whether it is a minus. -/
def minus : Reader Bool
  | '+' :: r => .done false r
  | '-' :: r => .done true r
  | s => .done false s

/-! ### Integers -/

/-- A sign and digits, of which the first is a zero only if it is the last. -/
def decimalInteger : Reader (Bool × List Char) :=
  label "integer" do
    let negative ← minus
    let ds ← fun s =>
      match s with
      | '0' :: r => .done ['0'] r
      | s => digits Char.isDigit s
    return (negative, ds)

/-- Digits of another base after a mark. -/
def basedInteger (mark : List Char) (form : String) (isDigit : Char → Bool) :
    Reader (List Char) :=
  firm (label form do signs mark; firm (digits isDigit))

/-- The integers of 64 bits with a sign end before this number, and start at
its negative. -/
def integerEnd : Nat := Nat.pow 2 63

/-- The integer of a sign and a magnitude, if 64 bits hold it. -/
def fitted (negative : Bool) (magnitude : Nat) : Except Cause Value :=
  if negative then
    if magnitude ≤ integerEnd then .ok (.integer (-magnitude)) else .error .tooSmall
  else if magnitude < integerEnd then .ok (.integer magnitude)
  else .error .tooLarge

/-- Whether a character is a digit in base eight. -/
def isOctalDigit (c : Char) : Bool :=
  '0' ≤ c && c ≤ '7'

/-- Whether a character is a digit in base two. -/
def isBinaryDigit (c : Char) : Bool :=
  c == '0' || c == '1'

/-- An integer in base ten, or in base sixteen, eight or two after a mark. -/
def integer : Reader Value :=
  fun s =>
    let based (mark : Char) (base : Nat) (form : String) (isDigit : Char → Bool) :=
      firm ((basedInteger ['0', mark] form isDigit).checked fun ds =>
        fitted false (ofDigits base ds)) s
    match s with
    | '0' :: 'x' :: _ => based 'x' 16 "hexadecimal integer" isHexDigit
    | '0' :: 'o' :: _ => based 'o' 8 "octal integer" isOctalDigit
    | '0' :: 'b' :: _ => based 'b' 2 "binary integer" isBinaryDigit
    | _ =>
      match decimalInteger s with
      | .done (negative, ds) r =>
        match fitted negative (ofDigits 10 ds) with
        | .ok v => .done v r
        | .error c => .stop { Failure.at s with cause? := some c }
      | .miss e => .miss e
      | .stop e => .stop e

/-! ### Fractions and exponents -/

/-- A point and digits. -/
def fraction : Reader (List Char) := do
  sign '.'
  expecting digitExpected (firm (digits Char.isDigit))

/-- The mark of an exponent, a sign and digits. -/
def exponent : Reader Int := do
  let _ ← one fun c => c == 'e' || c == 'E'
  let negative ← minus
  let ds ← firm (digits Char.isDigit)
  let n : Int := ofDigits 10 ds
  return if negative then -n else n

/-- What makes a number a floating one: an exponent, or a fraction with or
without one. -/
def scaling : Reader (List Char × Int) :=
  (do return ([], ← exponent)).orElse do
    let places ← fraction
    let e ← optional exponent
    return (places, e.getD 0)

/-- A number with a fraction or an exponent.  One too large is none. -/
def finiteFloat : Reader Value :=
  fun s =>
    match (do return (← decimalInteger, ← scaling) : Reader _) s with
    | .done ((negative, ds), (places, e)) r =>
      let x := Binary64.ofDecimal negative (ofDigits 10 (ds ++ places)) (e - places.length)
      if x = .infinite false then .stop (.at r) else .done (.float x) r
    | .miss e => .miss e
    | .stop e => .stop e

/-- An infinity or a number that is none, by name. -/
def namedFloat : Reader Value := do
  let negative ← minus
  (do signs "inf".toList; return .float (.infinite negative) : Reader Value).orElse do
    signs "nan".toList
    return .float .nan

/-- A number with a fraction or an exponent, or one by name. -/
def float : Reader Value :=
  label "floating-point number" (finiteFloat.orElse namedFloat)

end WorkspaceAudit.Toml

/-
WorkspaceAudit/Toml/Reader.lean

Readers of characters.

A reader takes what is left of a text and answers with a value and what is
then left, or with a failure.  There are two sorts of failure: after a
`miss` another reader may be tried at the same place, after a `stop` none is.
`Reader.firm` turns a miss into a stop: it stands where only one
continuation is possible.
-/
import WorkspaceAudit.Toml.Failure

namespace WorkspaceAudit.Toml

/-- What a reader answers. -/
inductive Outcome (α : Type) where
  | done (value : α) (rest : List Char)
  | miss (failure : Failure)
  | stop (failure : Failure)
  deriving Repr

/-- A reader of a value at the start of a text. -/
def Reader (α : Type) : Type :=
  List Char → Outcome α

namespace Reader

variable {α β : Type}

/-! ### Sequences -/

instance : Monad Reader where
  pure a := fun s => .done a s
  bind p f := fun s =>
    match p s with
    | .done a r => f a r
    | .miss e => .miss e
    | .stop e => .stop e

/-- A miss at this place. -/
def fail : Reader α :=
  fun s => .miss (.at s)

/-- A miss at this place, for a known cause. -/
def refuse (c : Cause) : Reader α :=
  fun s => .miss { Failure.at s with cause? := some c }

/-! ### Failures -/

/-- No other reader is tried if this one fails. -/
def firm (p : Reader α) : Reader α :=
  fun s =>
    match p s with
    | .miss e => .stop e
    | o => o

/-- Changes whatever failure a reader answers with. -/
def mapFailure (f : Failure → Failure) (p : Reader α) : Reader α :=
  fun s =>
    match p s with
    | .done a r => .done a r
    | .miss e => .miss (f e)
    | .stop e => .stop (f e)

/-- Says what is being read. -/
def label (what : String) (p : Reader α) : Reader α :=
  p.mapFailure fun e => { e with labels := e.labels ++ [what] }

/-- Says what could stand here. -/
def expecting (items : List Expected) (p : Reader α) : Reader α :=
  p.mapFailure fun e => { e with expected := e.expected ++ items }

/-- Turns the value into another one; if there is none, the reader misses
at the place where it started. -/
def checked (f : α → Except Cause β) (p : Reader α) : Reader β :=
  fun s =>
    match p s with
    | .done a r =>
      match f a with
      | .ok b => .done b r
      | .error c => .miss { Failure.at s with cause? := some c }
    | .miss e => .miss e
    | .stop e => .stop e

/-! ### Choices -/

/-- The second reader is tried where the first misses. -/
def orElse (p q : Reader α) : Reader α :=
  fun s =>
    match p s with
    | .miss _ => q s
    | o => o

/-- The value, or nothing and nothing consumed where the reader misses. -/
def optional (p : Reader α) : Reader (Option α) :=
  fun s =>
    match p s with
    | .done a r => .done (some a) r
    | .miss _ => .done none s
    | .stop e => .stop e

/-! ### Characters -/

/-- One character that passes the test. -/
def one (test : Char → Bool) : Reader Char
  | c :: r => if test c then .done c r else .miss (.at (c :: r))
  | [] => .miss (.at [])

/-- This character. -/
def sign (c : Char) : Reader Unit
  | d :: r => if d = c then .done () r else .miss (.at (d :: r))
  | [] => .miss (.at [])

/-- What follows these characters, if the text starts with them. -/
def dropStart? : List Char → List Char → Option (List Char)
  | [], s => some s
  | c :: cs, d :: s => if c = d then dropStart? cs s else none
  | _ :: _, [] => none

/-- These characters. -/
def signs (cs : List Char) : Reader Unit :=
  fun s =>
    match dropStart? cs s with
    | some r => .done () r
    | none => .miss (.at s)

/-- The characters from here on that pass the test. -/
def many (test : Char → Bool) : Reader (List Char) :=
  fun s => .done (s.takeWhile test) (s.dropWhile test)

/-- The characters from here on that pass the test, at least one. -/
def many1 (test : Char → Bool) : Reader (List Char) :=
  fun s =>
    match s.takeWhile test with
    | [] => .miss (.at s)
    | c :: cs => .done (c :: cs) (s.dropWhile test)

/-- The end of the text. -/
def finish : Reader Unit
  | [] => .done () []
  | s => .miss (.at s)

/-! ### Repetition -/

/-- Reads on, from the values read so far (the last first), as long as the
separator and then the item can be read.  Each round consumes something, so
the number of rounds is bounded by the length of the text. -/
def separatedFrom (item : Reader α) (separator : Reader Unit) :
    Nat → List α → Reader (List α)
  | 0, soFar, s => .done soFar.reverse s
  | n + 1, soFar, s =>
    match separator s with
    | .miss _ => .done soFar.reverse s
    | .stop e => .stop e
    | .done _ r =>
      match item r with
      | .miss _ => .done soFar.reverse s
      | .stop e => .stop e
      | .done a r => separatedFrom item separator n (a :: soFar) r

/-- One item or more with separators between them. -/
def separated (item : Reader α) (separator : Reader Unit) : Reader (List α) :=
  fun s =>
    match item s with
    | .done a r => separatedFrom item separator r.length [a] r
    | .miss e => .miss e
    | .stop e => .stop e

/-- Any number of items with separators between them. -/
def separatedOrNone (item : Reader α) (separator : Reader Unit) : Reader (List α) :=
  fun s =>
    match separated item separator s with
    | .miss _ => .done [] s
    | o => o

end Reader

end WorkspaceAudit.Toml

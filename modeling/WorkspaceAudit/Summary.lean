/-
WorkspaceAudit/Summary.lean

The summary of a scan for the terminal, in colour or not.

Paint stands around a text: a sequence that starts it and one that ends it.
Where the text itself ends some paint, the outer one is started again.
-/
import WorkspaceAudit.Decimal.Fixed
import WorkspaceAudit.Findings

namespace WorkspaceAudit

/-! ### Paint -/

/-- The looks of a text on a terminal. -/
inductive Paint
  | bold
  | green
  | cyan
  deriving DecidableEq, Repr

namespace Paint

/-- The number of a paint. -/
def code : Paint → List Char
  | bold => ['1']
  | green => ['3', '2']
  | cyan => ['3', '6']

/-- The sequence that starts a paint. -/
def opening (p : Paint) : List Char :=
  '\x1b' :: '[' :: (p.code ++ ['m'])

/-- The sequence that ends all paint. -/
def closing : List Char := ['\x1b', '[', '0', 'm']

/-- A text with its paint started again after each end of paint in it. -/
def reopened (p : Paint) : List Char → List Char
  | '\x1b' :: '[' :: '0' :: 'm' :: cs => closing ++ p.opening ++ reopened p cs
  | c :: cs => c :: reopened p cs
  | [] => []

/-- A text in paint, if there are colours at all. -/
def on (colours : Bool) (p : Paint) (cs : List Char) : List Char :=
  if colours then p.opening ++ reopened p cs ++ closing else cs

end Paint

/-! ### Durations -/

/-- A span of time: whole seconds and the nanoseconds beyond them. -/
structure Duration where
  seconds : Nat
  nanoseconds : Nat
  deriving DecidableEq, Repr

/-- The span in seconds, as a binary number. -/
def Duration.toBinary (d : Duration) : Binary64 :=
  let whole := d.seconds + d.nanoseconds / 1000000000
  let part := d.nanoseconds % 1000000000
  (Binary64.ofNat whole).addMagnitudes
    ((Binary64.ofNat part).div (Binary64.ofNat 1000000000))

/-! ### The summary -/

namespace Summary

/-- A line with a painted start. -/
def line (colours : Bool) (start : String) (rest : List Char) : List Char :=
  Paint.on colours .green start.toList ++ ' ' :: (rest ++ ['\n'])

/-- The line of a file: its path and the number of its issues. -/
def fileLine (colours : Bool) (file : FileIssues) : List Char :=
  ' ' :: ' ' :: (Paint.on colours .cyan file.path.toList ++
    ' ' :: '(' :: (Nat.toDigits 10 file.issues.length ++ [')', '\n']))

/-- The summary of a scan that took so long. -/
def text (colours : Bool) (elapsed : Duration) (f : Findings) : String :=
  String.ofList <|
    '\n' :: (Paint.on colours .bold "Scan Complete".toList ++ '\n' ::
      (line colours "Files with issues:" (Nat.toDigits 10 f.size) ++
        line colours "Total issues:" (Nat.toDigits 10 f.total) ++
        line colours "Time elapsed:" (Decimal.fixed 2 elapsed.toBinary ++ " seconds".toList) ++
        f.files.flatMap (fileLine colours)))

end Summary

end WorkspaceAudit

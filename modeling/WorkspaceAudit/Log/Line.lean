/-
WorkspaceAudit/Log/Line.lean

The lines of a log.

A line has a level, and a threshold lets through what is at least as grave.
-/
import WorkspaceAudit.Text.Utf8

namespace WorkspaceAudit.Log

/-- How grave a line is, the gravest first. -/
inductive Level
  | error
  | warn
  | info
  | debug
  | trace
  deriving DecidableEq, Repr

namespace Level

/-- The level in capitals. -/
def text : Level → String
  | error => "ERROR"
  | warn => "WARN"
  | info => "INFO"
  | debug => "DEBUG"
  | trace => "TRACE"

/-- The place of a level, from the gravest. -/
def rank : Level → Nat
  | error => 1
  | warn => 2
  | info => 3
  | debug => 4
  | trace => 5

end Level

/-- What is let through: nothing, or what is as grave as a level. -/
inductive Threshold
  | off
  | upTo (l : Level)
  deriving DecidableEq, Repr

namespace Threshold

/-- Whether a line of a level is let through. -/
def admits : Threshold → Level → Bool
  | off, _ => false
  | upTo l, m => m.rank ≤ l.rank

/-- All thresholds by their names. -/
def names : List (String × Threshold) :=
  ("OFF", off) ::
    [Level.error, .warn, .info, .debug, .trace].map fun l => (l.text, upTo l)

/-- The threshold of a name, in capitals or not. -/
def ofName? (name : String) : Option Threshold :=
  names.lookup (String.ofList (name.toList.map Char.toUpper))

end Threshold

/-- One line of a log. -/
structure Line where
  level : Level
  text : String
  deriving DecidableEq, Repr

namespace Line

/-- The level and the text of a line. -/
def plain (l : Line) : String :=
  l.level.text ++ " - " ++ l.text

/-- The line as it is written, with the time before it and its end. -/
def stamped (stamp : String) (l : Line) : String :=
  stamp ++ " - " ++ l.plain ++ "\n"

end Line

end WorkspaceAudit.Log

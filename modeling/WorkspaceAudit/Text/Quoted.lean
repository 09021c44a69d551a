/-
WorkspaceAudit/Text/Quoted.lean

Text between double quotes for a message: a quote, a backslash and whatever
cannot be seen are escaped.
-/
import WorkspaceAudit.Text.Unseen

namespace WorkspaceAudit.Text.Quoted

/-- The digits of a number in base sixteen, lower case, no leading zero. -/
def hexDigits (n : Nat) : List Char :=
  Nat.toDigits 16 n

/-- One character of a quoted text. -/
def escape (c : Char) : List Char :=
  if c = '"' then ['\\', '"']
  else if c = '\\' then ['\\', '\\']
  else if c = '\n' then ['\\', 'n']
  else if c = '\r' then ['\\', 'r']
  else if c = '\t' then ['\\', 't']
  else if c.toNat = 0 then ['\\', '0']
  else if isUnseen c then ['\\', 'u', '\x7b'] ++ hexDigits c.toNat ++ ['\x7d']
  else [c]

/-- The text between double quotes. -/
def quote (s : String) : String :=
  String.ofList ('"' :: (s.toList.flatMap escape ++ ['"']))

end WorkspaceAudit.Text.Quoted

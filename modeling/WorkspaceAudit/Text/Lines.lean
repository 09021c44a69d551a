/-
WorkspaceAudit/Text/Lines.lean

The line of a place in a text.

A place is a number of bytes from the start.  Its line is one more than the
line feeds before it; a place past the end, one within a character and one
that is not known count as being on the first line.
-/

namespace WorkspaceAudit.Text

/-- The bytes that a text is encoded in. -/
def byteSize (text : List Char) : Nat :=
  text.foldr (fun c n => c.utf8Size + n) 0

/-- The line so many bytes further on, from `line`. -/
def lineFrom (line : Nat) : Nat → List Char → Nat
  | 0, _ => line
  | _ + 1, [] => 1
  | n + 1, c :: cs =>
    if c.utf8Size ≤ n + 1 then
      lineFrom (if c = '\n' then line + 1 else line) (n + 1 - c.utf8Size) cs
    else 1

/-- The line of the place so many bytes into a text, if it is known. -/
def lineAt (text : List Char) : Option Nat → Nat
  | some offset => lineFrom 1 offset text
  | none => 1

end WorkspaceAudit.Text

/-
WorkspaceAudit/Source.lean

The checks on one source file.

A source text is searched for the retired result type and its delimiters
are counted, all of them in one pass.  The counts are of characters alone: a
delimiter in a string or a comment counts, and neither order nor nesting
matters.
-/

namespace WorkspaceAudit

/-- One line of the report about one file. -/
abbrev Issue := String

namespace Source

/-- The name whose presence is reported. -/
def retiredName : String := "ProgramResult"

/-- Reported once for a text that mentions the retired name. -/
def retiredNotice : Issue :=
  "ProgramResult used, may be incompatible with solana-program v2.1.0"

/-- A pair of delimiters that must occur equally often. -/
structure Delimiters where
  opening : Char
  closing : Char
  /-- Reported when the counts differ. -/
  notice : Issue

/-- The delimiters that are counted, in the order of their notices. -/
def delimiters : List Delimiters :=
  [⟨'{', '}', "Unbalanced braces"⟩,
   ⟨'(', ')', "Unbalanced parentheses"⟩,
   ⟨'[', ']', "Unbalanced brackets"⟩]

/-- Whether `part` occurs in the text without gaps. -/
def occursIn (part : List Char) : List Char → Bool
  | [] => part.isEmpty
  | c :: rest => part.isPrefixOf (c :: rest) || occursIn part rest

/-- How often the delimiters of a pair have occurred. -/
structure Tally where
  opened : Nat
  closed : Nat
  deriving DecidableEq, Repr

/-- The tally of a pair after one more character. -/
def Tally.count (d : Delimiters) (t : Tally) (c : Char) : Tally :=
  if c = d.opening then { t with opened := t.opened + 1 }
  else if c = d.closing then { t with closed := t.closed + 1 }
  else t

/-- The tallies of pairs after a text; each of its characters is shown to all
of them. -/
def tallies (ds : List Delimiters) (text : List Char) : List Tally :=
  text.foldl (fun ts c => List.zipWith (fun d t => t.count d c) ds ts) (ds.map fun _ => ⟨0, 0⟩)

/-- The issues of a source text: the notice of the retired name, then one
for each pair whose delimiters do not occur equally often. -/
def issues (text : String) : List Issue :=
  let cs := text.toList
  (if occursIn retiredName.toList cs then [retiredNotice] else []) ++
    ((delimiters.zip (tallies delimiters cs)).filter fun (_, t) => t.opened != t.closed).map
      fun (d, _) => d.notice

end Source

end WorkspaceAudit

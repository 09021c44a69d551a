/-
WorkspaceAudit/Text/Similarity.lean

How much two words resemble each other.

Characters match if they are equal and stand near each other.  The measure
is the mean of three shares: of the matched characters in either word, and
of the matched characters that are in the same order.
-/

namespace WorkspaceAudit.Text.Similarity

/-- The places of `b` in which each character of `a` is matched, in the
order of `a`; `i` is the place of the first character, and `used` are the
places that are taken. -/
def pairs (b : List Char) (range : Nat) : Nat → List Nat → List Char → List (Char × Nat)
  | _, _, [] => []
  | i, used, c :: a =>
    let near := (List.range b.length).find? fun j =>
      i ≤ j + range && j ≤ i + range && !used.contains j && b[j]? == some c
    match near with
    | some j => (c, j) :: pairs b range (i + 1) (j :: used) a
    | none => pairs b range (i + 1) used a

/-- The number of matched characters and of those that stand in another
order. -/
def matched (a b : List Char) : Nat × Nat :=
  let ps := pairs b (max a.length b.length / 2 - 1) 0 [] a
  let inOrder := (List.range b.length).filter fun j => ps.any fun p => p.2 == j
  let moved := (ps.zip inOrder).filter fun (p, j) => b[j]? != some p.1
  (ps.length, moved.length)

/-- The resemblance of two words, as a ratio from zero to one. -/
def ratio (a b : List Char) : Nat × Nat :=
  if a.isEmpty && b.isEmpty then (1, 1)
  else
    let (m, moved) := matched a b
    if m = 0 then (0, 1)
    else
      let (p, q) := (a.length, b.length)
      (m * q * m + m * p * m + (m - moved / 2) * p * q, 3 * p * q * m)

end WorkspaceAudit.Text.Similarity

/-
WorkspaceAudit/Decimal/Fixed.lean

A number with a fixed count of decimal places.

The exact value is rounded once, a tie to the even last digit.
-/
import WorkspaceAudit.Decimal.Binary64

namespace WorkspaceAudit.Decimal

/-- A whole number of units of ten to the minus `places`, with a point. -/
def withPoint (places units : Nat) : List Char :=
  let cs := Nat.toDigits 10 units
  let cs := List.replicate (places + 1 - cs.length) '0' ++ cs
  cs.take (cs.length - places) ++ '.' :: cs.drop (cs.length - places)

/-- A number that is not negative, with so many decimal places. -/
def fixed (places : Nat) : Binary64 → List Char
  | .nan => "NaN".toList
  | .infinite _ => "inf".toList
  | .finite _ m e =>
    let (num, den) := Binary64.ratio m e
    withPoint places (Binary64.divNearest (num * Nat.pow 10 places) den)

end WorkspaceAudit.Decimal

/-
WorkspaceAudit/Decimal/Shortest.lean

The fewest decimal digits that read back.

The reals that round to a number form an interval around it, whose ends
belong to it if the significand is even.  On the grid of the multiples of a
power of ten the two neighbours of the number are tried, from the coarsest
grid to finer ones; the first grid with a neighbour in the interval has the
fewest digits, and of two neighbours the nearer is taken.
-/
import WorkspaceAudit.Decimal.Binary64

namespace WorkspaceAudit

/-- `digits` times ten to the `exponent`. -/
structure Decimal where
  digits : Nat
  exponent : Int
  deriving DecidableEq, Repr

namespace Decimal

/-! ### The interval of a number -/

/-- A positive number and the ends of the reals that round to it, all three
over one denominator. -/
structure Neighbourhood where
  low : Nat
  value : Nat
  high : Nat
  den : Nat
  /-- Whether the ends round to the number too. -/
  closed : Bool

/-- The reals that round to a positive number.  Below a power of two the
numbers lie twice as dense as above it. -/
def neighbourhood (significand : Nat) (exponent : Int) : Neighbourhood :=
  let (p, q) := Binary64.powerOfTwo (exponent - 2)
  let below := if significand = Nat.pow 2 52 && Binary64.minExponent < exponent then 1 else 2
  { low := (4 * significand - below) * p
    value := 4 * significand * p
    high := (4 * significand + 2) * p
    den := q
    closed := significand % 2 == 0 }

/-- Whether `d` times ten to the `k` rounds to the number. -/
def Neighbourhood.holds (n : Neighbourhood) (d : Nat) (k : Int) : Bool :=
  let (p, q) := Binary64.powerOfTen k
  let x := d * p * n.den
  if n.closed then n.low * q ≤ x && x ≤ n.high * q else n.low * q < x && x < n.high * q

/-- The exponent of the first decimal digit of a positive ratio. -/
def leadingExponent (num den : Nat) : Int :=
  if den ≤ num then ((Nat.toDigits 10 (num / den)).length : Int) - 1
  else
    let c := (Nat.toDigits 10 (den / num)).length
    if den ≤ num * Nat.pow 10 (c - 1) then 1 - (c : Int) else -(c : Int)

/-! ### The search -/

/-- On the grid of ten to the `k`, the neighbour of the number that rounds
to it, the nearer if both do, the even one in a tie. -/
def Neighbourhood.onGrid? (n : Neighbourhood) (k : Int) : Option Nat :=
  let (p, q) := Binary64.powerOfTen k
  let num := n.value * q
  let den := n.den * p
  let d := num / den
  match n.holds d k, n.holds (d + 1) k with
  | true, true => some (Binary64.divNearest num den)
  | true, false => some d
  | false, true => some (d + 1)
  | false, false => none

/-- The first hit on the grids from ten to the `k` downwards. -/
def Neighbourhood.search (n : Neighbourhood) : Nat → Int → Decimal
  | 0, k => ⟨n.value * (Binary64.powerOfTen k).2 / (n.den * (Binary64.powerOfTen k).1), k⟩
  | steps + 1, k =>
    match n.onGrid? k with
    | some d => ⟨d, k⟩
    | none => n.search steps (k - 1)

/-- The shortest decimal that reads back as a positive number; no number
needs more than seventeen digits. -/
def shortest (significand : Nat) (exponent : Int) : Decimal :=
  let n := neighbourhood significand exponent
  n.search 17 (leadingExponent n.value n.den)

/-! ### Digits and a point -/

/-- The digits of a decimal without the zeros that end them, and the place
of the point after the first so many of them. -/
def pointed (d : Decimal) : List Char × Int :=
  let cs := Nat.toDigits 10 d.digits
  let significant := (cs.reverse.dropWhile (· == '0')).reverse
  (significant, cs.length + d.exponent)

/-- Written without an exponent.  A whole number has neither point nor
fraction. -/
def positional (d : Decimal) : List Char :=
  let (cs, point) := d.pointed
  if point ≤ 0 then '0' :: '.' :: (List.replicate (-point).toNat '0' ++ cs)
  else if cs.length ≤ point.toNat then
    cs ++ List.replicate (point.toNat - cs.length) '0'
  else cs.take point.toNat ++ '.' :: cs.drop point.toNat

end Decimal

end WorkspaceAudit

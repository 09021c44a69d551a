/-
WorkspaceAudit/Decimal/Binary64.lean

Binary floating point in 64 bits, in exact arithmetic.

A finite number is a significand of at most 53 bits times a power of two.
`round` takes a ratio to the nearest such number, a tie to the even
significand; reading a decimal text, and each of the operations, is the
exact result rounded once.
-/

namespace WorkspaceAudit

/-- A number in the 64-bit binary format: `finite` stands for the significand
times two to the exponent. -/
inductive Binary64
  | nan
  | infinite (negative : Bool)
  | finite (negative : Bool) (significand : Nat) (exponent : Int)
  deriving DecidableEq, Repr

namespace Binary64

/-- The least exponent. -/
def minExponent : Int := -1074

/-- The greatest exponent. -/
def maxExponent : Int := 971

/-- The significands end here. -/
def significandEnd : Nat := Nat.pow 2 53

/-- The zero of a sign. -/
def zero (negative : Bool) : Binary64 :=
  .finite negative 0 minExponent

/-- Two to an exponent, as a ratio. -/
def powerOfTwo (e : Int) : Nat × Nat :=
  if e < 0 then (1, Nat.pow 2 (-e).toNat) else (Nat.pow 2 e.toNat, 1)

/-- Ten to an exponent, as a ratio. -/
def powerOfTen (e : Int) : Nat × Nat :=
  if e < 0 then (1, Nat.pow 10 (-e).toNat) else (Nat.pow 10 e.toNat, 1)

/-- The quotient rounded to the nearest integer, a tie to the even one. -/
def divNearest (num den : Nat) : Nat :=
  let q := num / den
  let twice := 2 * (num % den)
  if twice < den || twice == den && q % 2 == 0 then q else q + 1

/-! ### Rounding -/

/-- The exponent of the number nearest to a positive ratio: the least at
which the ratio has at most 53 bits before the point. -/
def exponentFor (num den : Nat) : Int :=
  let e := (num.log2 : Int) - den.log2 - 53
  let (p, q) := powerOfTwo e
  let e := if num * q / (den * p) < significandEnd then e else e + 1
  max e minExponent

/-- The number nearest to a ratio, with the given sign. -/
def round (negative : Bool) (num den : Nat) : Binary64 :=
  if num = 0 then zero negative
  else
    let e := exponentFor num den
    let (p, q) := powerOfTwo e
    let m := divNearest (num * q) (den * p)
    let (m, e) := if m = significandEnd then (m / 2, e + 1) else (m, e)
    if maxExponent < e then .infinite negative else .finite negative m e

/-- The number nearest to `digits` times ten to the exponent.  The bounds
keep the powers small: nothing outside them is finite and not zero. -/
def ofDecimal (negative : Bool) (digits : Nat) (exponent : Int) : Binary64 :=
  let size : Int := (Nat.toDigits 10 digits).length
  if digits = 0 || size + exponent < -400 then zero negative
  else if 400 < size + exponent then .infinite negative
  else
    let (p, q) := powerOfTen exponent
    round negative (digits * p) q

/-- The number nearest to a natural number. -/
def ofNat (n : Nat) : Binary64 :=
  round false n 1

/-! ### Operations -/

/-- The sign. -/
def isNegative : Binary64 → Bool
  | nan => false
  | infinite n => n
  | finite n _ _ => n

/-- The other sign. -/
def neg : Binary64 → Binary64
  | nan => nan
  | infinite n => infinite !n
  | finite n m e => finite (!n) m e

/-- Whether it is a zero of either sign. -/
def isZero : Binary64 → Bool
  | finite _ m _ => m == 0
  | _ => false

/-- Whether it is an infinity of either sign. -/
def isInfinite : Binary64 → Bool
  | infinite _ => true
  | _ => false

/-- The magnitude of a finite number, as a ratio. -/
def ratio (significand : Nat) (exponent : Int) : Nat × Nat :=
  let (p, q) := powerOfTwo exponent
  (significand * p, q)

/-- The product. -/
def mul : Binary64 → Binary64 → Binary64
  | finite n m e, finite n' m' e' =>
    let (p, q) := ratio (m * m') (e + e')
    round (n != n') p q
  | infinite n, b => if b.isZero || b == nan then nan else infinite (n != b.isNegative)
  | a, infinite n => if a.isZero || a == nan then nan else infinite (n != a.isNegative)
  | _, _ => nan

/-- The quotient. -/
def div : Binary64 → Binary64 → Binary64
  | finite n m e, finite n' m' e' =>
    if m' = 0 then if m = 0 then nan else infinite (n != n')
    else
      let (p, q) := ratio m (e - e')
      round (n != n') p (q * m')
  | infinite _, infinite _ => nan
  | infinite n, b => if b == nan then nan else infinite (n != b.isNegative)
  | a, infinite n => if a == nan then nan else zero (n != a.isNegative)
  | _, _ => nan

/-- The sum of two numbers that are not negative. -/
def addMagnitudes : Binary64 → Binary64 → Binary64
  | finite _ m e, finite _ m' e' =>
    let (p, q) := ratio m e
    let (p', q') := ratio m' e'
    round false (p * q' + p' * q) (q * q')
  | infinite _, _ => infinite false
  | _, infinite _ => infinite false
  | _, _ => nan

/-- Whether it is a whole number. -/
def isWhole : Binary64 → Bool
  | finite _ m e =>
    let (p, q) := ratio m e
    p % q == 0
  | _ => false

end Binary64

end WorkspaceAudit

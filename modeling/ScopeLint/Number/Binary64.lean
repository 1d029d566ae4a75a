/-! Numbers of the 64-bit binary floating-point format, held as exact integers. A finite
number is `± mantissa * 2 ^ exponent`; every number made here is in reduced form, that is
the mantissa has 53 bits unless the exponent is the least one. All arithmetic is done on
exact ratios of natural numbers and rounded once, to the nearest number and in a tie to the
even mantissa. -/

namespace ScopeLint

/-- A power of two. -/
def twoTo (k : Nat) : Nat := Nat.pow 2 k

/-- A power of ten. -/
def tenTo (k : Nat) : Nat := Nat.pow 10 k

inductive Binary64 where
  | nan
  | infinite (negative : Bool)
  | finite (negative : Bool) (mantissa : Nat) (exponent : Int)
deriving DecidableEq

namespace Binary64

/-- The least exponent, that of the subnormal numbers. -/
def minExponent : Int := -1074

/-- The greatest exponent of a finite number. -/
def maxExponent : Int := 971

def zero (negative : Bool) : Binary64 := .finite negative 0 minExponent

/-- The ratio `num / (den * 2 ^ e)` as a numerator and a denominator. -/
def scaled (num den : Nat) (e : Int) : Nat × Nat :=
  if e < 0 then (num * twoTo e.natAbs, den) else (num, den * twoTo e.natAbs)

/-- The exponent at which the positive ratio `num / den` is written with at most 53 bits. -/
def exponentOf (num den : Nat) : Int :=
  let e := max ((num.log2 : Int) - den.log2 - 53) minExponent
  let (n, d) := scaled num den e
  if n / d < twoTo 53 then e else e + 1

/-- The quotient rounded to the nearest integer, a half to the even one. -/
def roundDiv (num den : Nat) : Nat :=
  let q := num / den
  let r := 2 * (num % den)
  if den < r ∨ (den = r ∧ q % 2 = 1) then q + 1 else q

/-- The number nearest to `± num / den`. -/
def ofRatio (negative : Bool) (num den : Nat) : Binary64 :=
  if num = 0 then zero negative
  else
    let e := exponentOf num den
    let (n, d) := scaled num den e
    let q := roundDiv n d
    let (m, e) := if q < twoTo 53 then (q, e) else (twoTo 52, e + 1)
    if maxExponent < e then .infinite negative else .finite negative m e

/-- The number nearest to an integer, if that is not beyond the finite numbers. -/
def ofInt? (n : Int) : Option Binary64 :=
  match ofRatio (n < 0) n.natAbs 1 with
  | .infinite _ => none
  | x => some x

/-- The number nearest to `± digits * 10 ^ exponent`. Exponents that are out of reach of
every digit string are settled without computing the power. -/
def ofDecimal (negative : Bool) (digits : Nat) (exponent : Int) : Binary64 :=
  let size : Int := (Nat.toDigits 10 digits).length
  if digits = 0 ∨ size + exponent < -400 then zero negative
  else if 400 < size + exponent then .infinite negative
  else if exponent < 0 then ofRatio negative digits (tenTo exponent.natAbs)
  else ofRatio negative (digits * tenTo exponent.natAbs) 1

def isNegative : Binary64 → Bool
  | nan => false
  | infinite s => s
  | finite s _ _ => s

def isZero : Binary64 → Bool
  | finite _ 0 _ => true
  | _ => false

/-- Equality as numbers: the two zeros are equal, and `nan` equals nothing. -/
def numEq : Binary64 → Binary64 → Bool
  | nan, _ | _, nan => false
  | infinite s, infinite t => s == t
  | finite s m e, finite t n f => (m == 0 && n == 0) || (s == t && m == n && e == f)
  | _, _ => false

/-- The integer that a finite number is equal to, if any. -/
def toInt? : Binary64 → Option Int
  | finite s m e =>
    let signed (k : Nat) : Int := if s then -(k : Int) else k
    if 0 ≤ e then some (signed (m * twoTo e.natAbs))
    else if m % twoTo e.natAbs = 0 then some (signed (m / twoTo e.natAbs))
    else none
  | _ => none

/-- A finite number without its fraction. -/
def truncate? : Binary64 → Option Int
  | finite s m e =>
    let k := if 0 ≤ e then m * twoTo e.natAbs else m / twoTo e.natAbs
    some (if s then -(k : Int) else k)
  | _ => none

/-- The sum rounded to the nearest number. Two numbers that cancel give the positive zero. -/
def add : Binary64 → Binary64 → Binary64
  | nan, _ | _, nan => nan
  | infinite s, infinite t => if s = t then infinite s else nan
  | infinite s, _ => infinite s
  | _, infinite t => infinite t
  | finite s m e, finite t n f =>
    let low := min e f
    let signed (neg : Bool) (k : Nat) : Int := if neg then -(k : Int) else k
    let sum := signed s (m * twoTo (e - low).natAbs) + signed t (n * twoTo (f - low).natAbs)
    if sum = 0 then zero (s && t)
    else if low < 0 then ofRatio (sum < 0) sum.natAbs (twoTo low.natAbs)
    else ofRatio (sum < 0) (sum.natAbs * twoTo low.natAbs) 1

end Binary64

end ScopeLint

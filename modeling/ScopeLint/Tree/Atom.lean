import ScopeLint.Fault
import ScopeLint.Number.Decimal

/-! The leaf values of a syntax tree, with their class, truth, equality and text. Numbers of
different classes are equal when they are the same number, and the truth values count as the
integers zero and one. Whole numbers have texts only up to a limit on their digits. -/

namespace ScopeLint

inductive Atom where
  | null
  | bool (b : Bool)
  | int (n : Int)
  | float (x : Binary64)
  | complex (re im : Binary64)
  | str (s : String)
  | bytes (bs : List UInt8)
  | ellipsis
deriving DecidableEq

namespace Atom

/-- The name of the class of the value. -/
def className : Atom → String
  | null => "NoneType"
  | bool _ => "bool"
  | int _ => "int"
  | float _ => "float"
  | complex _ _ => "complex"
  | str _ => "str"
  | bytes _ => "bytes"
  | ellipsis => "ellipsis"

/-- Whether the value counts as true in a condition. -/
def truth : Atom → Bool
  | null => false
  | bool b => b
  | int n => n != 0
  | float x => !x.isZero
  | complex re im => !(re.isZero && im.isZero)
  | str s => !s.isEmpty
  | bytes bs => !bs.isEmpty
  | ellipsis => true

/-! ### Equality of values -/

/-- A real part: an exact integer or a floating-point number. -/
inductive Scalar where
  | exact (n : Int)
  | approx (x : Binary64)

/-- Integers and floating-point numbers are compared exactly. -/
def Scalar.numEq : Scalar → Scalar → Bool
  | .exact m, .exact n => m == n
  | .exact m, .approx y => y.toInt? == some m
  | .approx x, .exact n => x.toInt? == some n
  | .approx x, .approx y => x.numEq y

/-- The real and the imaginary part of a number. -/
def parts? : Atom → Option (Scalar × Scalar)
  | bool b => some (.exact (if b then 1 else 0), .exact 0)
  | int n => some (.exact n, .exact 0)
  | float x => some (.approx x, .exact 0)
  | complex re im => some (.approx re, .approx im)
  | _ => none

def valueEq (a b : Atom) : Bool :=
  match a.parts?, b.parts? with
  | some (ar, ai), some (br, bi) => ar.numEq br && ai.numEq bi
  | none, none => a == b
  | _, _ => false

/-- Whether a value is a number on the real line; truth values count. -/
def isReal : Atom → Bool
  | bool _ | int _ | float _ => true
  | _ => false

/-- Whether there is an order between two values: real numbers, texts and bytes have one among
themselves. -/
def isOrderedWith : Atom → Atom → Bool
  | str _, str _ => true
  | bytes _, bytes _ => true
  | a, b => a.isReal && b.isReal

/-! ### Text -/

/-- A part of a complex number, where whole numbers have no `.0`. -/
def complexPart (x : Binary64) : String := x.format ⟨false⟩

/-- The imaginary part alone when the real part is the positive zero, and otherwise both parts
in parentheses, the second one with its sign. -/
def complexText (re im : Binary64) : String :=
  let imText := complexPart im
  if re = Binary64.zero false then imText ++ "j"
  else
    let sign := if im.isNegative then "" else "+"
    "(" ++ complexPart re ++ sign ++ imText ++ "j)"

/-- The spelling of a value in a program, of whatever length. -/
def spelling : Atom → String
  | null => "None"
  | bool b => if b then "True" else "False"
  | int n => toString n
  | float x => x.text
  | complex re im => complexText re im
  | str s => Text.quote s
  | bytes bs => Text.quoteBytes bs
  | ellipsis => "Ellipsis"

/-- The spelling of a value where a string stands for itself. -/
def text : Atom → String
  | str s => s
  | a => a.spelling

/-- Whole numbers with more digits than this are not written. -/
def digitLimit : Nat := 4300

/-- Whether a value is a whole number that is too long to be written. -/
def isLong : Atom → Bool
  | int n => tenTo digitLimit ≤ n.natAbs
  | _ => false

/-- A text that is written unless a number in it is too long. -/
def unlessLong (long : Bool) (s : String) : Except Fault String :=
  if long then .error .tooManyDigits else .ok s

/-- The value as it is written in a program. -/
def repr (a : Atom) : Except Fault String := unlessLong a.isLong a.spelling

/-- The value as it is printed. -/
def printed (a : Atom) : Except Fault String := unlessLong a.isLong a.text

end Atom

end ScopeLint

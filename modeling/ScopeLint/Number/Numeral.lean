import ScopeLint.Text.Character

/-! Numerals as they may be written: with the digits of any script, with single underscores between
digits, and with blanks around them. -/

namespace ScopeLint.Numeral

/-- A character of a numeral in plain form: digits as `0` to `9`, blanks outside of the basic
characters as spaces. -/
def plainChar (c : Char) : Char :=
  if c.toNat < 0x7f then c
  else if Text.isBlank c then ' '
  else match Text.digit? c with
    | some d => Nat.digitChar d
    | none => c

/-- The blanks that may stand around a numeral in plain form. -/
def isBlank (c : Char) : Bool := c = ' ' || ('\t' ≤ c && c ≤ '\r')

/-- A numeral in plain form, without the blanks around it. -/
def plain (s : String) : List Char :=
  let cs := s.toList.map plainChar
  ((cs.dropWhile isBlank).reverse.dropWhile isBlank).reverse

/-- The sign at the front of a numeral, and the rest. -/
def readSign : List Char → Bool × List Char
  | '-' :: rest => (true, rest)
  | '+' :: rest => (false, rest)
  | rest => (false, rest)

/-- Digits with single underscores between them: their value, their number and the rest. -/
def readDigits : Nat → Nat → List Char → Nat × Nat × List Char
  | value, count, '_' :: c :: rest =>
    if 0 < count ∧ c.isDigit then readDigits (10 * value + (c.toNat - '0'.toNat)) (count + 1) rest
    else (value, count, '_' :: c :: rest)
  | value, count, c :: rest =>
    if c.isDigit then readDigits (10 * value + (c.toNat - '0'.toNat)) (count + 1) rest
    else (value, count, c :: rest)
  | value, count, [] => (value, count, [])

/-- The whole number that a text stands for. -/
def int? (s : String) : Option Int :=
  let (negative, rest) := readSign (plain s)
  match readDigits 0 0 rest with
  | (_, 0, _) => none
  | (n, _, []) => some (if negative then -(n : Int) else n)
  | _ => none

end ScopeLint.Numeral

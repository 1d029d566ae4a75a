import ScopeLint.Number.Binary64
import ScopeLint.Number.Numeral

/-! Decimal text of binary floating-point numbers. A number is written with the fewest
digits that read back to it, of those the nearest to it. The digits are found grid by grid:
for one, two, … digits the two neighbours of the number on that grid are compared with the
interval of reals that round to the number, in exact integer arithmetic. -/

namespace ScopeLint

/-- The decimal number `digits * 10 ^ exponent`. -/
structure Decimal where
  digits : Nat
  exponent : Int
deriving DecidableEq

namespace Decimal

def digitCount (n : Nat) : Nat := (Nat.toDigits 10 n).length

/-- The `k` with `10 ^ (k - 1) ≤ num / den < 10 ^ k`, for ratios that are not below `10 ^ -400`. -/
def magnitude (num den : Nat) : Int := digitCount (num * tenTo 400 / den) - 400

/-- The neighbour of `m * 2 ^ e` on the grid of multiples of `10 ^ g` that reads back to it,
the nearer one if both do. -/
def onGrid? (m : Nat) (e g : Int) : Option Nat :=
  let scale := 4 * (if e < 0 then twoTo e.natAbs else 1) * (if g < 0 then tenTo g.natAbs else 1)
  let ulp := if e < 0 then scale / twoTo e.natAbs else scale * twoTo e.natAbs
  let unit := if g < 0 then scale / tenTo g.natAbs else scale * tenTo g.natAbs
  let value := m * ulp
  let below := value / unit
  let down := value - below * unit
  let up := (below + 1) * unit - value
  let lowGap := if m = twoTo 52 ∧ Binary64.minExponent < e then ulp / 4 else ulp / 2
  let highGap := ulp / 2
  let inside (d gap : Nat) : Bool := d < gap || (d == gap && m % 2 == 0)
  match inside down lowGap, inside up highGap with
  | true, true => some (if up < down ∨ (up = down ∧ below % 2 = 1) then below + 1 else below)
  | true, false => some below
  | false, true => some (below + 1)
  | false, false => none

/-- Drops zeros at the end of the digits; `fuel` bounds their number. -/
def trim : Nat → Decimal → Decimal
  | 0, d => d
  | fuel + 1, d =>
    if d.digits ≠ 0 ∧ d.digits % 10 = 0 then trim fuel ⟨d.digits / 10, d.exponent + 1⟩ else d

/-- The shortest decimal that reads back to the positive number `m * 2 ^ e`. Seventeen digits
are always enough. -/
def shortest (m : Nat) (e : Int) : Decimal :=
  let (num, den) := if e < 0 then (m, twoTo e.natAbs) else (m * twoTo e.natAbs, 1)
  let k := magnitude num den
  let hit := (List.range 17).findSome? fun i =>
    let g := k - (i + 1 : Nat)
    (onGrid? m e g).map fun d => trim 20 ⟨d, g⟩
  hit.getD ⟨0, 0⟩

/-- How a decimal is laid out: whether a whole number keeps `.0`. -/
structure Layout where
  keepPointZero : Bool

/-- Plain notation from `0.0001` up to sixteen places, and otherwise an exponent with a sign
and at least two digits. -/
def layout (style : Layout) (d : Decimal) : String :=
  let ds := Nat.toDigits 10 d.digits
  let point : Int := ds.length + d.exponent
  if -4 < point ∧ point ≤ 16 then
    if point ≤ 0 then "0." ++ String.ofList (List.replicate point.natAbs '0' ++ ds)
    else if ds.length ≤ point.natAbs then
      String.ofList (ds ++ List.replicate (point.natAbs - ds.length) '0')
        ++ (if style.keepPointZero then ".0" else "")
    else String.ofList (ds.take point.natAbs ++ '.' :: ds.drop point.natAbs)
  else
    let power := point - 1
    let mark := if power < 0 then "e-" else "e+"
    let exponent := Nat.toDigits 10 power.natAbs
    let padded := if exponent.length < 2 then '0' :: exponent else exponent
    let head := match ds with
      | [] => []
      | [c] => [c]
      | c :: rest => c :: '.' :: rest
    String.ofList head ++ mark ++ String.ofList padded

end Decimal

namespace Binary64

/-- The text of a number; a negative zero keeps its sign. -/
def format (style : Decimal.Layout) : Binary64 → String
  | nan => "nan"
  | infinite s => if s then "-inf" else "inf"
  | finite s m e =>
    let body := if m = 0 then (Decimal.mk 0 0).layout style else (Decimal.shortest m e).layout style
    if s then "-" ++ body else body

def text (x : Binary64) : String := x.format ⟨true⟩

/-! ### Reading -/

/-- An exponent part that fills the whole rest of the text. -/
def readExponent? : List Char → Option Int
  | [] => some 0
  | c :: rest =>
    if c = 'e' ∨ c = 'E' then
      let (negative, rest) := Numeral.readSign rest
      match Numeral.readDigits 0 0 rest with
      | (_, 0, _) => none
      | (n, _, []) => some (if negative then -(n : Int) else n)
      | _ => none
    else none

/-- An unsigned decimal with an optional fraction and exponent. -/
def readUnsigned? (negative : Bool) (cs : List Char) : Option Binary64 :=
  let (whole, n, rest) := Numeral.readDigits 0 0 cs
  let (digits, k, rest) := match rest with
    | '.' :: r =>
      let (fraction, k, rest) := Numeral.readDigits 0 0 r
      (whole * tenTo k + fraction, k, rest)
    | r => (whole, 0, r)
  if n + k = 0 then none
  else (readExponent? rest).map fun e => ofDecimal negative digits (e - k)

/-- Reads a signed decimal, an infinity or a `nan`, with blanks around it. -/
def ofText? (s : String) : Option Binary64 :=
  let (negative, rest) := Numeral.readSign (Numeral.plain s)
  let word := String.ofList (rest.map Char.toLower)
  if word = "inf" ∨ word = "infinity" then some (.infinite negative)
  else if word = "nan" then some .nan
  else readUnsigned? negative rest

end Binary64

end ScopeLint

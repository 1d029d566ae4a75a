/-! Plain data in the usual textual form: null, truth values, whole numbers, texts in double
quotes, lists in brackets and records in braces. Numbers with a fraction or an exponent are not
data here. -/

namespace ScopeLint

/-- The names of a record stand beside its values, in the same order. -/
inductive Datum where
  | null
  | bool (b : Bool)
  | int (n : Int)
  | text (s : String)
  | list (items : List Datum)
  | record (names : List String) (values : List Datum)
deriving Inhabited

namespace Datum

/-! ### Texts -/

def hexValue? (c : Char) : Option Nat :=
  if c.isDigit then some (c.toNat - '0'.toNat)
  else if 'a' ≤ c ∧ c ≤ 'f' then some (c.toNat - 'a'.toNat + 10)
  else if 'A' ≤ c ∧ c ≤ 'F' then some (c.toNat - 'A'.toNat + 10)
  else none

/-- The number that some hexadecimal digits stand for. -/
def hexNumber? (digits : List Char) : Option Nat :=
  digits.foldlM (fun n c => (hexValue? c).map (16 * n + ·)) 0

/-- What a single character after a backslash stands for. -/
def escaped? : Char → Option Char
  | '"' => some '"'
  | '\\' => some '\\'
  | '/' => some '/'
  | 'b' => some '\x08'
  | 'f' => some '\x0c'
  | 'n' => some '\n'
  | 'r' => some '\r'
  | 't' => some '\t'
  | _ => none

def isHighUnit (n : Nat) : Bool := 0xd800 ≤ n && n < 0xdc00

def isLowUnit (n : Nat) : Bool := 0xdc00 ≤ n && n < 0xe000

/-- The character of a pair of 16-bit units. -/
def ofPair (high low : Nat) : Char :=
  Char.ofNat (0x10000 + 0x400 * (high - 0xd800) + (low - 0xdc00))

/-- The characters of a text up to its closing quote. `high` is the first half of a pair that
waits for its second half. -/
def readText : Option Nat → List Char → Option (List Char × List Char)
  | none, '"' :: rest => some ([], rest)
  | high, '\\' :: 'u' :: a :: b :: c :: d :: rest =>
    match hexNumber? [a, b, c, d], high with
    | none, _ => none
    | some n, none =>
      if isHighUnit n then readText (some n) rest
      else if isLowUnit n then none
      else (readText none rest).map fun (cs, rest) => (Char.ofNat n :: cs, rest)
    | some n, some h =>
      if isLowUnit n then (readText none rest).map fun (cs, rest) => (ofPair h n :: cs, rest)
      else none
  | none, '\\' :: c :: rest =>
    match escaped? c with
    | none => none
    | some e => (readText none rest).map fun (cs, rest) => (e :: cs, rest)
  | none, c :: rest =>
    if c.toNat < 0x20 then none
    else (readText none rest).map fun (cs, rest) => (c :: cs, rest)
  | _, _ => none

/-! ### Data -/

def isBlank (c : Char) : Bool := c = ' ' || c = '\t' || c = '\n' || c = '\r'

def skipBlanks (cs : List Char) : List Char := cs.dropWhile isBlank

/-- Whole numbers; the sign stands before the digits. -/
def readInt (cs : List Char) : Option (Datum × List Char) :=
  let (negative, rest) := match cs with
    | '-' :: r => (true, r)
    | r => (false, r)
  let digits := rest.takeWhile Char.isDigit
  let after := rest.dropWhile Char.isDigit
  if digits.isEmpty || after.head?.any ['.', 'e', 'E'].contains then none
  else
    let n := digits.foldl (fun n c => 10 * n + (c.toNat - '0'.toNat)) 0
    some (.int (if negative then -(n : Int) else n), after)

/-- A word that stands for a value. -/
def readWord (word : String) (value : Datum) (cs : List Char) : Option (Datum × List Char) :=
  if word.toList.isPrefixOf cs then some (value, cs.drop word.length) else none

mutual

/-- Reads a value from the front of a text; every step takes a character. -/
def readValue : Nat → List Char → Option (Datum × List Char)
  | 0, _ => none
  | fuel + 1, cs =>
    match skipBlanks cs with
    | 'n' :: rest => readWord "ull" .null rest
    | 't' :: rest => readWord "rue" (.bool true) rest
    | 'f' :: rest => readWord "alse" (.bool false) rest
    | '"' :: rest => (readText none rest).map fun (s, rest) => (.text (String.ofList s), rest)
    | '[' :: rest =>
      match skipBlanks rest with
      | ']' :: rest => some (.list [], rest)
      | rest => (readItems fuel rest).map fun (items, rest) => (.list items, rest)
    | '\x7b' :: rest =>
      match skipBlanks rest with
      | '\x7d' :: rest => some (.record [] [], rest)
      | rest => (readEntries fuel rest).map fun (names, values, rest) =>
        (.record names values, rest)
    | rest => readInt rest

/-- The items of a list up to its closing bracket. -/
def readItems : Nat → List Char → Option (List Datum × List Char)
  | 0, _ => none
  | fuel + 1, cs => do
    let (item, rest) ← readValue fuel cs
    match skipBlanks rest with
    | ']' :: rest => return ([item], rest)
    | ',' :: rest =>
      let (items, rest) ← readItems fuel rest
      return (item :: items, rest)
    | _ => none

/-- The names and the values of a record up to its closing brace. -/
def readEntries : Nat → List Char → Option (List String × List Datum × List Char)
  | 0, _ => none
  | fuel + 1, cs => do
    match skipBlanks cs with
    | '"' :: rest =>
      let (name, rest) ← readText none rest
      match skipBlanks rest with
      | ':' :: rest =>
        let (value, rest) ← readValue fuel rest
        match skipBlanks rest with
        | '\x7d' :: rest => return ([String.ofList name], [value], rest)
        | ',' :: rest =>
          let (names, values, rest) ← readEntries fuel rest
          return (String.ofList name :: names, value :: values, rest)
        | _ => none
      | _ => none
    | _ => none

end

/-- The value that a whole text stands for. -/
def ofText? (s : String) : Option Datum := do
  let cs := s.toList
  let (value, rest) ← readValue (2 * cs.length + 1) cs
  if (skipBlanks rest).isEmpty then return value else none

end Datum

end ScopeLint

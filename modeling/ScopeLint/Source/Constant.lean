import ScopeLint.Number.Decimal
import ScopeLint.Text.Character
import ScopeLint.Tree.Atom

/-! The texts of constants in a program. -/

namespace ScopeLint.Source

/-! ### Numbers -/

/-- A real or imaginary part. What is not finite is written as a computation. -/
def numberPart (suffix : String) (x : Binary64) : String :=
  match x with
  | .nan => "(1e1000" ++ suffix ++ "-1e1000" ++ suffix ++ ")"
  | .infinite s => (if s then "-1e1000" else "1e1000") ++ suffix
  | x => x.text ++ suffix

def complexNumber (re im : Binary64) : String :=
  let imaginary := numberPart "j" im
  if re.isZero then imaginary
  else if im.isZero then "(" ++ numberPart "" re ++ "+0j)"
  else
    let sign := if imaginary.startsWith "-" then "" else "+"
    "(" ++ numberPart "" re ++ sign ++ imaginary ++ ")"

/-- The spelling of a number, to which truth values belong here. -/
def number? : Atom → Option String
  | .bool b => some (Atom.spelling (.bool b))
  | .int n => some (toString n)
  | .float x => some (numberPart "" x)
  | .complex re im => some (complexNumber re im)
  | _ => none

/-! ### Texts -/

/-- The inside of a text in triple quotes: backslashes are doubled, and a quote is escaped when it
is the third in a row or the last character of a line that ends the text. -/
def blockChars : List Char → List Char
  | [] => []
  | '\\' :: rest => '\\' :: '\\' :: blockChars rest
  | '"' :: '"' :: '"' :: rest => '"' :: '"' :: '\\' :: '"' :: blockChars rest
  | ['"'] => ['\\', '"']
  | ['"', '\n'] => ['\\', '"', '\n']
  | c :: rest => c :: blockChars rest

/-- A text as a block, if it has only characters that a block keeps. -/
def block? (s : String) : Option String :=
  let quotes := "\"\"\""
  if s.toList.any fun c => c = '\r' || c = '\x00' then none
  else some (quotes ++ String.ofList (blockChars s.toList) ++ quotes)

/-- Whether the lines of a text after the first, as far as they are not blank, are there and
indented at least so far. -/
def isIndented (s : String) (indent : Nat) : Bool :=
  let lines := ((s.splitOn "\n").tail.map String.toList).filter fun l => !l.all Text.isBlank
  !lines.isEmpty && lines.all fun l => indent ≤ Text.indentation l

/-- How deep a text stands in an expression. -/
inductive Depth where
  /-- It is a whole side of a statement. -/
  | shallow
  /-- It is part of something. -/
  | deep
deriving DecidableEq

/-- Whether a text is written as a block after what stands in its line. At the beginning of a line
it is. Elsewhere it has to be long, in a line that is indented; and where the line has room for
it, its own lines have to be indented too. -/
def wantsBlock (depth : Depth) (line : List Char) (s : String) : Bool :=
  let size := (Text.quote s).length
  let indent := Text.indentation line
  line.all Text.isBlank
    || (!(depth = .deep && !s.toList.contains '\n')
      && 20 ≤ size && 0 < indent && (100 ≤ line.length + size || isIndented s indent))

def stringText (depth : Depth) (line : List Char) (s : String) : String :=
  let block := if wantsBlock depth line s then block? s else none
  block.getD (Text.quote s)

end ScopeLint.Source

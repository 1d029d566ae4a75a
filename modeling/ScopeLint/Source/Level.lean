import ScopeLint.Tree.Site

/-! Operators: their signs, and how strongly they bind. Every place of an expression asks for a level
of binding, and what binds less is put in parentheses. -/

namespace ScopeLint.Source

/-- How strongly something binds; between two levels there is room for one more. -/
abbrev Level := Nat

namespace Level

def statement : Level := 0

/-- What stands to the right of a power sign. -/
def exponent : Level := 22

def unary : Level := 24

def power : Level := 26

def constant : Level := 30

/-- More than anything has. -/
def highest : Level := 32

end Level

/-- The sign and the level of an operator. -/
def sign? : Kind → Option (String × Level)
  | .orOp => some ("or", 2)
  | .andOp => some ("and", 4)
  | .notOp => some ("not", 6)
  | .eqOp => some ("==", 8)
  | .notEqOp => some ("!=", 8)
  | .ltOp => some ("<", 8)
  | .ltEOp => some ("<=", 8)
  | .gtOp => some (">", 8)
  | .gtEOp => some (">=", 8)
  | .isOp => some ("is", 8)
  | .isNotOp => some ("is not", 8)
  | .inOp => some ("in", 8)
  | .notInOp => some ("not in", 8)
  | .bitOrOp => some ("|", 10)
  | .bitXorOp => some ("^", 12)
  | .bitAndOp => some ("&", 14)
  | .lShiftOp => some ("<<", 16)
  | .rShiftOp => some (">>", 16)
  | .addOp => some ("+", 18)
  | .subOp => some ("-", 18)
  | .multOp => some ("*", 20)
  | .divOp => some ("/", 20)
  | .modOp => some ("%", 20)
  | .floorDivOp => some ("//", 20)
  | .matMultOp => some ("@", 20)
  | .invertOp => some ("~", Level.unary)
  | .uAddOp => some ("+", Level.unary)
  | .uSubOp => some ("-", Level.unary)
  | .powOp => some ("**", Level.power)
  | _ => none

/-- The fault of taking two characters out of what stands for the operator of an operation. With two
of them at hand, it is the operation that has no sign. -/
def looseSignFault (operation : Kind) (t : Tree) : Fault :=
  match t, t.length with
  | _, .error _ => .notSubscriptable t.className
  | .atom (.str _), .ok 0 | .atom (.str _), .ok 1 => .noCharacter
  | .atom (.bytes _), .ok 0 | .atom (.bytes _), .ok 1 => .noByte
  | _, .ok 0 | _, .ok 1 => .noElement
  | _, .ok _ => .unknownOperator ("ast." ++ operation.className)

/-- The sign and the level of the operator of an operation. -/
def sign (operation : Kind) (operator : Tree) : Except Fault (String × Level) :=
  match operator.kind? with
  | none => .error (looseSignFault operation operator)
  | some k =>
    match sign? k with
    | some s => .ok s
    | none => .error (.unknownOperator ("ast." ++ k.className))

/-- The sign of an operator before its operand; a word is followed by a space. -/
def leadingSign (text : String) : String :=
  if text.toList.all Char.isAlpha then text ++ " " else text

/-- The levels that the operands of an operator ask for. Powers group to the right, all else to
the left. -/
def operandLevels (own : Level) : Level × Level :=
  if own = Level.power then (Level.power + 1, Level.exponent) else (own, own + 1)

end ScopeLint.Source

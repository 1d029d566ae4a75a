import ScopeLint.Tree.Literal

/-! What is known about values: a value, a type, and relations to other values. The values of one
inference stand in a pool and are named by their numbers, so relations can lead back to where they
started; then there is no finite text. -/

namespace ScopeLint

namespace Literal

mutual

/-- The spelling of a value in a program. -/
def spelling : Literal → String
  | .atom a => a.spelling
  | .list items => "[" ++ ", ".intercalate (spellings items) ++ "]"

def spellings : List Literal → List String
  | [] => []
  | l :: ls => spelling l :: spellings ls

end

/-- The spelling of a value where a string stands for itself. -/
def text : Literal → String
  | .atom a => a.text
  | l => l.spelling

mutual

/-- Whether a value is a whole number that is too long, or a list with such a number in it. -/
def isLong : Literal → Bool
  | .atom a => a.isLong
  | .list items => anyLong items

def anyLong : List Literal → Bool
  | [] => false
  | l :: ls => isLong l || anyLong ls

end

end Literal

/-- What is known about one value. A relation has the name of an operator and the number of the
other value. -/
structure ValueInfo where
  value : Option Literal
  type : Option Literal
  relations : List (String × Nat)

namespace ValueInfo

def unknown : ValueInfo := ⟨none, none, []⟩

def known (a : Atom) : ValueInfo := ⟨some (.atom a), none, []⟩

/-- The fault of taking the difference of two values, which there is none of. -/
def noDifference : Fault := .notCombinable "-" "ValueInfo" "ValueInfo"

end ValueInfo

structure Pool where
  infos : List ValueInfo

namespace Pool

def empty : Pool := ⟨[]⟩

def size (p : Pool) : Nat := p.infos.length

def push (p : Pool) (info : ValueInfo) : Pool := ⟨p.infos ++ [info]⟩

/-- Notes that a value stands in a relation to another one. -/
def relate (p : Pool) (i : Nat) (operator : String) (j : Nat) : Pool :=
  ⟨p.infos.modify i fun v => { v with relations := v.relations ++ [(operator, j)] }⟩

def get (p : Pool) (i : Nat) : Except Fault ValueInfo :=
  match p.infos[i]? with
  | some v => .ok v
  | none => .error .noElement

/-- The text of a known value or type. -/
def printed (l : Literal) : Except Fault String := Atom.unlessLong l.isLong l.text

/-- The text of a value, with relations unfolded at most `fuel` deep. -/
def textWithin (p : Pool) : Nat → Nat → Except Fault String
  | 0, _ => .error .endless
  | fuel + 1, i => do
    let v ← p.get i
    let value ← match v.value with
      | some l => printed l
      | none => pure ""
    let type ← match v.type with
      | some l => do pure (":" ++ (← printed l))
      | none => pure ""
    let related ← v.relations.mapM fun (operator, j) => do
      return operator ++ "-" ++ (← textWithin p fuel j)
    let relations := if related.isEmpty then "" else "~" ++ ",".intercalate related
    let all := value ++ type ++ relations
    return if all.isEmpty then "?" else all

/-- The text of a value. A chain of relations longer than the pool comes back to a value that it
has passed, and so does not end. -/
def text (p : Pool) (i : Nat) : Except Fault String := p.textWithin p.size i

end Pool

/-- A number as the summand of a sum: truth values count as integers. -/
inductive Summand where
  | int (n : Int)
  | float (x : Binary64)

def Atom.summand? : Atom → Option Summand
  | .bool b => some (.int (if b then 1 else 0))
  | .int n => some (.int n)
  | .float x => some (.float x)
  | _ => none

/-- An integer is rounded before it is added to a floating-point number. -/
def Summand.add : Summand → Summand → Except Fault Atom
  | .int m, .int n => .ok (.int (m + n))
  | .float x, .float y => .ok (.float (x.add y))
  | .int m, .float y =>
    match Binary64.ofInt? m with
    | some x => .ok (.float (x.add y))
    | none => .error .intTooLarge
  | .float x, .int n =>
    match Binary64.ofInt? n with
    | some y => .ok (.float (x.add y))
    | none => .error .intTooLarge

namespace ValueInfo

def summand? (v : ValueInfo) : Option Summand :=
  match v.value with
  | some (.atom a) => a.summand?
  | _ => none

/-- The sum of two values is known when both are known numbers. -/
def add (v w : ValueInfo) : Except Fault ValueInfo :=
  match v.summand?, w.summand? with
  | some a, some b => (a.add b).map known
  | _, _ => .ok unknown

end ValueInfo

namespace Pool

/-- Notes a relation between two values of the pool. -/
def relate? (p : Pool) (i : Nat) (operator : String) (j : Nat) : Except Fault Pool := do
  let _ ← p.get i
  let _ ← p.get j
  return p.relate i operator j

/-- Puts the sum of two values into the pool. -/
def add (p : Pool) (i j : Nat) : Except Fault Pool := do
  let sum ← (← p.get i).add (← p.get j)
  return p.push sum

/-- There are no differences of values. -/
def subtract (p : Pool) (i j : Nat) : Except Fault Pool := do
  let _ ← p.get i
  let _ ← p.get j
  throw ValueInfo.noDifference

end Pool

end ScopeLint

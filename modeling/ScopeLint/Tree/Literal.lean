import ScopeLint.Tree.Site

/-! Literals: strings and numbers, and lists and tuples of literals, which both give lists. -/

namespace ScopeLint

inductive Literal where
  | atom (a : Atom)
  | list (items : List Literal)

namespace Literal

/-- The name of the class of the value. -/
def className : Literal → String
  | .atom a => a.className
  | .list _ => "list"

def truth : Literal → Bool
  | .atom a => a.truth
  | .list items => !items.isEmpty

/-- The values that one gets by going through a literal: the items of a list, the characters of
a string. -/
def items : Literal → Except Fault (List Literal)
  | .list ls => .ok ls
  | .atom (.str s) => .ok (s.toList.map fun c => .atom (.str (String.ofList [c])))
  | l => .error (.notIterable l.className)

end Literal

namespace Tree

/-- The value of a constant that is a string or a number. -/
def literalConstant? (t : Tree) : Option Atom :=
  match t.stringConstant? with
  | some s => some (.str s)
  | none => t.numberConstant?

mutual

/-- The value of a literal. Anything else is refused, by the class of the first such node. -/
def literal : Tree → Except Fault Literal
  | .node k s fields =>
    if k = .list ∨ k = .tuple then
      match fields with
      | .list ts :: _ => (literals ts).map .list
      | .atom a :: _ =>
        match Tree.items (.atom a) with
        | .ok [] => .ok (.list [])
        | .ok (t :: _) => .error (.notLiteral t.className)
        | .error e => .error e
      | t :: _ => .error (.notIterable t.className)
      | [] => .error (.missingAttribute k.className "elts")
    else
      match (Tree.node k s fields).literalConstant? with
      | some a => .ok (.atom a)
      | none => .error (.notLiteral k.className)
  | t => .error (.notLiteral t.className)

def literals : List Tree → Except Fault (List Literal)
  | [] => .ok []
  | t :: ts => do
    let l ← literal t
    let ls ← literals ts
    return l :: ls

end

end Tree

end ScopeLint

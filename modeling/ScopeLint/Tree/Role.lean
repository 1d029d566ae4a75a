import ScopeLint.Tree.Site
import ScopeLint.Text.Character

/-! What a node does to a name: whether it binds, reads or deletes it, and the words for it in a
report. -/

namespace ScopeLint.Tree

/-- Nodes that bind a name by being there. -/
def binders : List Kind :=
  [.importStmt, .importFrom, .exceptHandler, .functionDef, .classDef, .parameters, .parameter]

/-- Whether a node binds or deletes a name. What is no binder has to say so by its context. -/
def isWrite (t : Tree) : Except Fault Bool :=
  if t.isOneOf binders then .ok true
  else do
    let ctx ← t.get "ctx"
    return ctx.isOneOf [.store, .del, .param]

/-- The context of a name. A name that has none, as no parser makes it, is only refused by
`isWrite`. -/
def nameContext? (t : Tree) : Option Kind :=
  if t.isKind .name then (t.get? "ctx").bind kind? else none

/-- Whether a node reads its name. A name without a context does not. -/
def isRead (t : Tree) : Bool := t.nameContext? == some .load

/-- Whether a node needs its name to be bound: deleting counts as a use, and a name without a
context as none. -/
def isUse (t : Tree) : Bool := t.nameContext? == some .load || t.nameContext? == some .del

/-- Whether a node is a name that is bound by its context. A name without one is not. -/
def isStore (t : Tree) : Bool := t.nameContext? == some .store

/-- Parameters, in each of the ways in which they can stand in a tree. A name without a context is
none. -/
def isParam (t : Tree) : Bool :=
  t.nameContext? == some .param || t.isOneOf [.parameters, .parameter]

def isImport (t : Tree) : Bool := t.isOneOf [.importStmt, .importFrom]

def isDefinition (t : Tree) : Bool := t.isOneOf [.functionDef, .classDef]

/-- The text of a name. -/
def identifier? (t : Tree) : Option String :=
  if t.isKind .name then (t.get? "id").bind str? else none

/-- Whether a node is a name in capitals. -/
def isConstantName (t : Tree) : Bool := t.identifier?.any Text.isCapitals

/-- Whether a node is a name in capitals, where what stands for a name has to be a text or bytes. -/
def checkConstantName (t : Tree) : Except Fault Bool :=
  if !t.isKind .name then .ok false
  else match t.get? "id" with
  | some (.atom (.str s)) => .ok (Text.isCapitals s)
  | some (.atom (.bytes bs)) => .ok (Text.isCapitals (Text.ofBytes bs))
  | some other => .error (.missingAttribute other.className "isupper")
  | none => .ok false

def isNamed (t : Tree) (name : String) : Bool := t.identifier? == some name

/-- Whether a node is a call of the function with a name. -/
def isCallOf (t : Tree) (name : String) : Bool :=
  t.isKind .call && (t.get? "func").any fun f => f.isNamed name

/-- The word for what a node makes of its name. -/
def role (t : Tree) : String :=
  if t.isImport then "import"
  else if t.isKind .functionDef then "function"
  else if t.isKind .classDef then "class"
  else if t.isParam then "param"
  else "variable"

/-- A value written as a whole number. This is for the lines and columns of nodes, which are far
from any limit on digits. -/
def wholeNumber : Tree → Except Fault String
  | .atom (.int n) => .ok (toString n)
  | .atom (.bool b) => .ok (if b then "1" else "0")
  | .atom (.float x) =>
    match x, x.truncate? with
    | _, some n => .ok (toString n)
    | .nan, _ => .error (.notFinite "NaN")
    | _, _ => .error (.notFinite "infinity")
  | t => .error (.notNumber t.className)

/-- The line of a node as text. -/
def lineText (t : Tree) : Except Fault String := do
  let line ← t.get "lineno"
  line.wholeNumber

/-- The line and the column of a node, with a colon between them. -/
def placeText (t : Tree) : Except Fault String := do
  let line ← t.get "lineno"
  let column ← t.get "col_offset"
  return (← line.wholeNumber) ++ ":" ++ (← column.wholeNumber)

/-- The role of a node and its place. -/
def roleText (t : Tree) : Except Fault String := do
  return t.role ++ " at " ++ (← t.placeText)

/-- The roles of several nodes in brackets. -/
def rolesText (ts : List Tree) : Except Fault String := do
  return "[" ++ ", ".intercalate (← ts.mapM roleText) ++ "]"

end ScopeLint.Tree

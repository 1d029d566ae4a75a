import ScopeLint.Tree.Class
import ScopeLint.Tree.Site

/-! Templates: trees with holes. A capture stands for a node of one of its classes and remembers
it under a name; a test stands for a node of a class. What a template demands of a place below
the root of a match is found by following the way to that place, where lists are gone through
from head to tail. -/

namespace ScopeLint

/-- The classes of a capture: one class, or several. -/
inductive CaptureClass where
  | one (c : NodeClass)
  | several (cs : List NodeClass)
deriving DecidableEq

namespace CaptureClass

def holds (t : Tree) : CaptureClass → Bool
  | one c => c.holds t
  | several cs => cs.any (NodeClass.holds t)

/-- Captures of names bind the identifier: the same name everywhere, and no other capture the
same one. -/
def bindsNames (c : CaptureClass) : Bool := c == .one (.kind .name)

end CaptureClass

inductive Template where
  | atom (a : Atom)
  | list (items : List Template)
  | node (kind : Kind) (fields : List Template)
  | capture (name : String) (classes : CaptureClass)
  /-- A test for a class; without one, what was named is no class. -/
  | test (cls : Option NodeClass)

/-- A step down from a place: to the head or the tail of a list, or into a field. -/
inductive Way where
  | head
  | tail
  | field (name : String)
deriving DecidableEq

/-- The step that a value stands for. Zero leads to the head and one to the tail; whatever is no text
is the name of no field. -/
def Way.ofTree : Tree → Way
  | .atom a =>
    if a.valueEq (.int 0) then .head else if a.valueEq (.int 1) then .tail else .field a.text
  | t => .field t.print

/-- What is demanded of a place: to be as a template says, nothing, or the impossible. -/
inductive Demand where
  | shape (t : Template)
  | anything
  | impossible

namespace Template

mutual

/-- A tree as a template without holes. -/
def ofTree : Tree → Template
  | .atom a => .atom a
  | .list items => .list (ofTrees items)
  | .node k _ fields => .node k (ofTrees fields)

def ofTrees : List Tree → List Template
  | [] => []
  | t :: ts => ofTree t :: ofTrees ts

end

/-- The name of the class of a template as a value. -/
def className : Template → String
  | .atom a => a.className
  | .list _ => "list"
  | .node k _ => k.className
  | .capture _ _ => "functools.partial"
  | .test _ => "function"

/-- The template below a template, one step down. Texts and bytes have heads and tails too. -/
def step : Template → Way → Except Fault Demand
  | .list [], .head => .ok .impossible
  | .list (t :: _), .head => .ok (.shape t)
  | .list ts, .tail => .ok (.shape (.list ts.tail))
  | .atom (.str s), .head => match s.toList with
    | [] => .ok .impossible
    | c :: _ => .ok (.shape (.atom (.str (String.ofList [c]))))
  | .atom (.str s), .tail => .ok (.shape (.atom (.str (String.ofList s.toList.tail))))
  | .atom (.bytes bs), .head => match bs with
    | [] => .ok .impossible
    | b :: _ => .ok (.shape (.atom (.int b.toNat)))
  | .atom (.bytes bs), .tail => .ok (.shape (.atom (.bytes bs.tail)))
  | t, .head => .error (.notSubscriptable t.className)
  | t, .tail => .error (.notSubscriptable t.className)
  | .node k fields, .field name => match (k.fields.zip fields).lookup name with
    | some t => .ok (.shape t)
    | none => .error .unknownPath
  | .capture _ _, .field _ => .ok .anything
  | .test _, .field _ => .ok .anything
  | _, .field _ => .error .unknownPath

/-- What a template demands at the end of a way. Below a capture or a test anything goes. -/
def demand : Template → List Way → Except Fault Demand
  | t, [] => .ok (.shape t)
  | t, w :: ways => do
    match ← t.step w with
    | .shape u => demand u ways
    | other => return other

end Template

end ScopeLint

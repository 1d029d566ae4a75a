import ScopeLint.Fault
import ScopeLint.Tree.Basic

/-! Nodes in their place. A site is a node together with the nodes around it and the way to it
from the root, which tells equal nodes at different places apart. The walk over a tree goes level
by level: first the root, then its children in the order of the fields, then their children. -/

namespace ScopeLint

/-- One step down in a tree: into a field of a node, or to an item of a list. -/
inductive Step where
  | field (name : String)
  | item (index : Nat)
deriving DecidableEq

/-- A place in a tree: the nodes around it, the nearest first, and the way to it. -/
structure Trail where
  above : List Tree
  path : List Step

namespace Trail

def start : Trail := ⟨[], []⟩

/-- The place of the fields of a node. -/
def inside (trail : Trail) (node : Tree) : Trail := ⟨node :: trail.above, trail.path⟩

def field (trail : Trail) (name : String) : Trail := ⟨trail.above, trail.path ++ [.field name]⟩

def item (trail : Trail) (i : Nat) : Trail := ⟨trail.above, trail.path ++ [.item i]⟩

end Trail

/-- A tree in its place. -/
structure Site extends Trail where
  tree : Tree

namespace Tree

/-- The value of a field of a node or of a part of its place, which has to be there. -/
def get (t : Tree) (key : String) : Except Fault Tree :=
  match t.get? key with
  | some value => .ok value
  | none => .error (.missingAttribute t.className key)

/-- The items of a value that is gone through: those of a list, or the parts of a text. -/
def items : Tree → Except Fault (List Tree)
  | .list ts => .ok ts
  | .atom (.str s) => .ok (s.toList.map fun c => .atom (.str (String.ofList [c])))
  | .atom (.bytes bs) => .ok (bs.map fun b => .atom (.int b.toNat))
  | t => .error (.notIterable t.className)

/-- The number of items of a value that has a length. -/
def length : Tree → Except Fault Nat
  | .list ts => .ok ts.length
  | .atom (.str s) => .ok s.length
  | .atom (.bytes bs) => .ok bs.length
  | t => .error (.noLength t.className)

/-- Only nodes have fields to go through. -/
def requireNode (t : Tree) : Except Fault Unit :=
  if t.isNode then .ok () else .error (.missingAttribute t.className "_fields")

/-! ### Walking by levels -/

/-- Two lists of levels side by side. -/
def mergeLevels {α : Type} : List (List α) → List (List α) → List (List α)
  | [], ys => ys
  | xs, [] => xs
  | x :: xs, y :: ys => (x ++ y) :: mergeLevels xs ys

mutual

/-- The nodes of a tree level by level. -/
def levels (trail : Trail) : Tree → List (List Site)
  | .atom _ => []
  | .list _ => []
  | .node k s fields =>
    [⟨trail, .node k s fields⟩] :: levelsOfFields (trail.inside (.node k s fields)) k.fields fields

def levelsOfFields (trail : Trail) : List String → List Tree → List (List Site)
  | name :: names, field :: fields =>
    let here := match field with
      | .list items => levelsOfItems (trail.field name) 0 items
      | t => levels (trail.field name) t
    mergeLevels here (levelsOfFields trail names fields)
  | _, _ => []

def levelsOfItems (trail : Trail) (i : Nat) : List Tree → List (List Site)
  | [] => []
  | t :: ts => mergeLevels (levels (trail.item i) t) (levelsOfItems trail (i + 1) ts)

end

/-- All nodes of a tree in breadth-first order, each in its place. -/
def sites (t : Tree) : List Site := (t.levels .start).flatten

/-- All nodes of a node in breadth-first order. -/
def walk (t : Tree) : Except Fault (List Tree) := do
  t.requireNode
  return t.sites.map Site.tree

end Tree

namespace Site

/-- A tree that stands alone. -/
def root (t : Tree) : Site := ⟨.start, t⟩

/-- The node around a site. -/
def parent (s : Site) : Except Fault Tree :=
  match s.above with
  | up :: _ => .ok up
  | [] => .error (.missingAttribute s.tree.className "up")

end Site

end ScopeLint

import ScopeLint.Tree.Kind
import ScopeLint.Tree.Atom

/-! Syntax trees. A tree is a leaf value, a list of trees or a node with a kind, a place in the
source and its fields in the order of the kind. Nothing forces a field to hold what the grammar
puts there. -/

namespace ScopeLint

/-- Where a node stands in the source. The parts that are not known are absent. -/
structure Span where
  line : Option Atom
  column : Option Atom
  endLine : Option Atom
  endColumn : Option Atom
deriving DecidableEq

inductive Tree where
  | atom (a : Atom)
  | list (items : List Tree)
  | node (kind : Kind) (span : Span) (fields : List Tree)

namespace Span

def absent : Span := ⟨none, none, none, none⟩

/-- The place of a node of a kind, part by part. For kinds with a place, an end that is not known
reads as null. -/
def get? (kind : Kind) (span : Span) (key : String) : Option Atom :=
  let ending (e : Option Atom) : Option Atom :=
    match e with
    | some a => some a
    | none => if kind.located then some .null else none
  match key with
  | "lineno" => span.line
  | "col_offset" => span.column
  | "end_lineno" => ending span.endLine
  | "end_col_offset" => ending span.endColumn
  | _ => none

/-- The names of the parts of a place, in order. -/
def attributes : List String := ["lineno", "col_offset", "end_lineno", "end_col_offset"]

end Span

namespace Tree

def null : Tree := .atom .null

/-- The name of the class of a tree as a value. -/
def className : Tree → String
  | .atom a => a.className
  | .list _ => "list"
  | .node k _ _ => k.className

/-- Whether the tree counts as true in a condition: lists do when they are not empty, and nodes
always do. -/
def truth : Tree → Bool
  | .atom a => a.truth
  | .list items => !items.isEmpty
  | .node _ _ _ => true

def isNode : Tree → Bool
  | .node _ _ _ => true
  | _ => false

def kind? : Tree → Option Kind
  | .node k _ _ => some k
  | _ => none

def isKind (t : Tree) (k : Kind) : Bool := t.kind? == some k

def isOneOf (t : Tree) (ks : List Kind) : Bool :=
  match t.kind? with
  | some k => ks.contains k
  | none => false

mutual

/-- The spelling of a tree as a value in a program. Nodes have none and only tell their class. -/
def spelling : Tree → String
  | .atom a => a.spelling
  | .list items => "[" ++ ", ".intercalate (spellings items) ++ "]"
  | .node k _ _ => "<ast." ++ k.className ++ " object>"

def spellings : List Tree → List String
  | [] => []
  | t :: ts => spelling t :: spellings ts

end

/-- The spelling of a tree where a text stands for itself, as the names of a program do. -/
def print : Tree → String
  | .atom a => a.text
  | t => t.spelling

mutual

/-- Whether a number is too long to write a tree as a value. Nodes do not show what they have. -/
def isLong : Tree → Bool
  | .atom a => a.isLong
  | .list items => anyLong items
  | .node _ _ _ => false

def anyLong : List Tree → Bool
  | [] => false
  | t :: ts => isLong t || anyLong ts

end

/-- A tree as a value in a program. -/
def repr (t : Tree) : Except Fault String := Atom.unlessLong t.isLong t.spelling

/-- A tree as a value that is printed. -/
def printed (t : Tree) : Except Fault String := Atom.unlessLong t.isLong t.print

def str? : Tree → Option String
  | .atom (.str s) => some s
  | _ => none

/-- The value of a field of a node, or of a part of its place. -/
def get? : Tree → String → Option Tree
  | .node k span fields, key =>
    match (k.fields.zip fields).lookup key with
    | some t => some t
    | none => (span.get? k key).map .atom
  | _, _ => none

/-- The value of a constant node. -/
def constant? : Tree → Option Atom
  | .node .constant _ (.atom a :: _) => some a
  | _ => none

/-- The text of a string constant. -/
def stringConstant? (t : Tree) : Option String :=
  match t.constant? with
  | some (.str s) => some s
  | _ => none

/-- The value of a numeric constant; truth values do not count. -/
def numberConstant? (t : Tree) : Option Atom :=
  match t.constant? with
  | some (.int n) => some (.int n)
  | some (.float x) => some (.float x)
  | some (.complex re im) => some (.complex re im)
  | _ => none

end Tree

end ScopeLint

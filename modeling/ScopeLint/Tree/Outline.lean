import ScopeLint.Tree.Site

/-! The outline of a tree as text: the class of a node with its fields in parentheses, and the
items of a list on lines of their own, two steps further in than the list. -/

namespace ScopeLint.Tree

/-- What an outline shows: the names of the fields, the places of the nodes, and the text of one
step of indentation. -/
structure OutlineStyle where
  fieldNames : Bool
  places : Bool
  indent : String

def OutlineStyle.pad (style : OutlineStyle) (level : Nat) : String :=
  String.join (List.replicate level style.indent)

/-- A field of a node. -/
def OutlineStyle.entry (style : OutlineStyle) (name value : String) : String :=
  if style.fieldNames then name ++ "=" ++ value else value

/-- The entries for the place of a node. -/
def OutlineStyle.placeEntries (style : OutlineStyle) (k : Kind) (s : Span) :
    Except Fault (List String) :=
  if style.places ∧ k.located then
    Span.attributes.mapM fun key =>
      match s.get? k key with
      | some a => do return style.entry key (← a.repr)
      | none => .error (.missingAttribute k.className key)
  else .ok []

mutual

/-- The outline of a tree that stands at a level. -/
def outlineAt (style : OutlineStyle) (level : Nat) : Tree → Except Fault String
  | .atom a => a.repr
  | .list [] => .ok "[]"
  | .list (t :: ts) => do
    let lines ← outlineItems style level (t :: ts)
    return "\n".intercalate (["["] ++ lines ++ [style.pad (level + 1) ++ "]"])
  | .node k s fields => do
    let entries ← outlineFields style level k.fields fields
    let places ← style.placeEntries k s
    return k.className ++ "(" ++ ", ".intercalate (entries ++ places) ++ ")"

def outlineItems (style : OutlineStyle) (level : Nat) : List Tree → Except Fault (List String)
  | [] => .ok []
  | t :: ts => do
    let text ← outlineAt style (level + 2) t
    let rest ← outlineItems style level ts
    return (style.pad (level + 2) ++ text ++ ",") :: rest

def outlineFields (style : OutlineStyle) (level : Nat) :
    List String → List Tree → Except Fault (List String)
  | name :: names, t :: ts => do
    let text ← outlineAt style level t
    let rest ← outlineFields style level names ts
    return style.entry name text :: rest
  | _, _ => .ok []

end

/-- The outline of a node, or the outlines of the items of a list, one after the other. -/
def outline (style : OutlineStyle) : Tree → Except Fault String
  | .list ts => do
    let texts ← ts.mapM (outlineAt style 0)
    return "\n".intercalate texts
  | .atom a => .error (.notTree a.className)
  | t => outlineAt style 0 t

end ScopeLint.Tree

import ScopeLint.Template.Basic

/-! Searching a tree for a template. The places of a tree are gone through once, from the root
down. A candidate begins at every place that the template accepts; at each later place below its
beginning it has to accept what the template demands there, and it is complete when the search
has left it. -/

namespace ScopeLint

/-- A place in the search: a value, or what is left of a list from an index on. The path leads to
the value or to the list. -/
structure Spot where
  ways : List Way
  tree : Tree
  path : List Step
  index : Nat

namespace Spot

/-- The path to the first item of a list. -/
def headPath (s : Spot) : List Step := s.path ++ [.item s.index]

end Spot

namespace Tree

mutual

/-- The places of a tree from the root down: a node before its fields, a list before its head and
then its tail. -/
def spots (ways : List Way) (path : List Step) : Tree → List Spot
  | .atom a => [⟨ways, .atom a, path, 0⟩]
  | .list items => suffixSpots ways path 0 items
  | .node k s fields =>
    ⟨ways, .node k s fields, path, 0⟩ :: fieldSpots ways path k.fields fields

def suffixSpots (ways : List Way) (path : List Step) (i : Nat) : List Tree → List Spot
  | [] => [⟨ways, .list [], path, i⟩]
  | t :: ts =>
    ⟨ways, .list (t :: ts), path, i⟩
      :: spots (ways ++ [.head]) (path ++ [.item i]) t
      ++ suffixSpots (ways ++ [.tail]) path (i + 1) ts

def fieldSpots (ways : List Way) (path : List Step) : List String → List Tree → List Spot
  | name :: names, t :: ts =>
    spots (ways ++ [.field name]) (path ++ [.field name]) t ++ fieldSpots ways path names ts
  | _, _ => []

end

end Tree

/-- What stands for the name of a name: a value, or a node, which only its place tells apart. -/
inductive Identifier where
  | value (a : Atom)
  | place (path : List Step)
deriving DecidableEq

def Identifier.same : Identifier → Identifier → Bool
  | value a, value b => a.valueEq b
  | place p, place q => p == q
  | _, _ => false

/-- What a candidate has captured, and which identifiers its captures of names stand for. -/
structure Bindings where
  captures : List (String × List Step)
  identifiers : List (String × Identifier)

namespace Bindings

def empty : Bindings := ⟨[], []⟩

/-- The last capture of a name counts. -/
def capture (b : Bindings) (name : String) (path : List Step) : Bindings :=
  { b with captures := b.captures.filter (fun c => c.1 != name) ++ [(name, path)] }

/-- A name stands for one identifier, and an identifier for one name. -/
def bind (b : Bindings) (name : String) (id : Identifier) : Bool × Bindings :=
  let known := b.identifiers.lookup name
  let taken := b.identifiers.any fun e => e.2.same id
  match known with
  | some old => (taken && id.same old, b)
  | none =>
    if taken then (false, b) else (true, { b with identifiers := b.identifiers ++ [(name, id)] })

end Bindings

/-- Whether a capture takes a tree. -/
def CaptureClass.take (classes : CaptureClass) (name : String) (t : Tree) (path : List Step)
    (b : Bindings) : Except Fault (Bool × Bindings) :=
  if !classes.holds t then .ok (false, b)
  else
    let b := b.capture name path
    if classes.bindsNames then
      match t.get? "id" with
      | some (.atom a) => .ok (b.bind name (.value a))
      | some (.list _) => .error (.notHashable "list")
      | some (.node _ _ _) => .ok (b.bind name (.place path))
      | none => .error (.missingAttribute t.className "id")
    else .ok (true, b)

/-- Whether a constant of a template accepts a tree. -/
def Atom.acceptsTree (a : Atom) (t : Tree) : Except Fault Bool :=
  match a, t with
  | .null, t => .ok (match t with | .atom .null => true | _ => false)
  | .bytes _, _ | .complex _ _, _ | .ellipsis, _ => .error (.notCallable a.className)
  | a, .atom c => .ok (c.valueEq a)
  | _, _ => .ok false

namespace Template

/-- Whether a template accepts a place as far as the place itself goes: the kind of a node, the
length of a list and its head, the value of a constant. -/
def accepts : Template → Spot → Bindings → Except Fault (Bool × Bindings)
  | .atom a, s, b => do return (← a.acceptsTree s.tree, b)
  | .node k _, s, b => .ok (s.tree.isKind k, b)
  | .list [], s, b => .ok (match s.tree with | .list _ => true | _ => false, b)
  | .list (u :: us), s, b =>
    match s.tree with
    | .list (t :: ts) =>
      if us.length ≤ ts.length then accepts u ⟨s.ways, t, s.headPath, 0⟩ b else .ok (false, b)
    | _ => .ok (false, b)
  | .capture name classes, s, b => classes.take name s.tree s.path b
  | .test (some c), s, b => .ok (c.holds s.tree, b)
  | .test none, _, _ => .error .notClass

end Template

def Demand.accepts (s : Spot) (b : Bindings) : Demand → Except Fault (Bool × Bindings)
  | .shape t => t.accepts s b
  | .anything => .ok (true, b)
  | .impossible => .ok (false, b)

/-- A match that has not failed so far, with the node by which it is reported. -/
structure Candidate where
  ways : List Way
  tree : Tree
  path : List Step
  bindings : Bindings

/-- The candidates of a search: those that are complete, and those that may still fail. -/
structure Search where
  complete : List Candidate
  active : List Candidate

namespace Search

def start : Search := ⟨[], []⟩

/-- Holds a candidate against a place. -/
def recheck (t : Template) (s : Spot) (c : Candidate) (r : Search) : Except Fault Search :=
  if c.ways.isPrefixOf s.ways then do
    let demand ← t.demand (s.ways.drop c.ways.length)
    let (ok, b) ← demand.accepts s c.bindings
    return if ok then { r with active := r.active ++ [{ c with bindings := b }] } else r
  else .ok { r with complete := r.complete ++ [c] }

/-- The candidate that begins at a place; for a list it is reported by the first item. -/
def candidate (s : Spot) (b : Bindings) : Except Fault Candidate :=
  match s.tree with
  | .list [] => .error .noElement
  | .list (t :: _) => .ok ⟨s.ways, t, s.headPath, b⟩
  | t => .ok ⟨s.ways, t, s.path, b⟩

/-- Goes on to a further place. -/
def step (t : Template) (r : Search) (s : Spot) : Except Fault Search := do
  let r ← r.active.foldlM (fun r c => recheck t s c r) { r with active := [] }
  let (ok, b) ← t.accepts s Bindings.empty
  if ok then
    let c ← candidate s b
    return { r with active := r.active ++ [c] }
  else return r

end Search

/-- The matches of a template in a tree, each reported by a node. -/
def Template.search (t : Template) (tree : Tree) : Except Fault (List Candidate) := do
  let r ← (tree.spots [] []).foldlM (Search.step t) Search.start
  (r.complete ++ r.active).mapM fun c =>
    if c.tree.isNode then .ok c else .error (.missingAttribute c.tree.className "captures")

end ScopeLint

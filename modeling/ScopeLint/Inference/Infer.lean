import ScopeLint.Inference.Value
import ScopeLint.Tree.Role

/-! Inference of values in straight-line code: assignments and expressions over names, constants
and binary operators. A name has the value that was last assigned to it, and names that are not
assigned get a value of their own that is not known. -/

namespace ScopeLint

/-- The state of an inference: the pool, the values of the nodes by their paths, and the values of
the names in each open module, the innermost first. -/
structure Inference where
  pool : Pool
  values : List (List Step × Nat)
  environments : List (List (Atom × Nat))

/-- What was inferred before a fault stays inferred. -/
abbrev Infer := ExceptT Fault (StateM Inference)

namespace Inference

def start : Inference := ⟨Pool.empty, [], []⟩

def valueAt? (s : Inference) (path : List Step) : Option Nat := s.values.lookup path

/-- The value of a name in the innermost module. -/
def lookup? (environment : List (Atom × Nat)) (name : Atom) : Option Nat :=
  (environment.find? fun e => e.1.valueEq name).map Prod.snd

end Inference

namespace Infer

/-- Puts a value into the pool. -/
def fresh (info : ValueInfo) : Infer Nat := do
  let s ← get
  set { s with pool := s.pool.push info }
  return s.pool.size

def setValue (path : List Step) (i : Nat) : Infer Unit :=
  modify fun s => { s with values := (path, i) :: s.values.filter fun e => e.1 != path }

/-- The value of a node, which must have one. -/
def valueOf (path : List Step) (t : Tree) : Infer Nat := do
  match t.isNode, (← get).valueAt? path with
  | true, some i => return i
  | _, _ => throw (.missingAttribute t.className "val")

/-- The names of the innermost module. -/
def environment : Infer (List (Atom × Nat)) := do
  match (← get).environments with
  | e :: _ => return e
  | [] => throw (.missingAttribute "NoneType" "locals")

def assign (name : Atom) (i : Nat) : Infer Unit := do
  let e ← environment
  let rest := e.filter fun b => !b.1.valueEq name
  modify fun s => { s with environments := ((name, i) :: rest) :: s.environments.tail }

def enter : Infer Unit := modify fun s => { s with environments := [] :: s.environments }

def leave : Infer Unit := modify fun s => { s with environments := s.environments.tail }

/-- A name takes the value that it has been assigned, or a new one. -/
def visitName (path : List Step) (id : Tree) : Infer Unit := do
  let e ← environment
  let known ← match id with
    | .atom a => pure (Inference.lookup? e a)
    | .list _ => throw (.notHashable "list")
    | _ => pure none
  match known with
  | some i => setValue path i
  | none => setValue path (← fresh .unknown)

/-- The name of the class of an operator, with the module that it comes from. -/
def operatorClass (t : Tree) : String :=
  if t.isNode then "ast." ++ t.className else t.className

/-- The value of a binary operation. The relation is noted before the operator is looked at; only
sums have values. -/
def combine (path left right : List Step) (l operator r : Tree) : Infer Unit := do
  let i ← valueOf left l
  let j ← valueOf right r
  modify fun s => { s with pool := s.pool.relate i operator.className j }
  if operator.isKind .addOp then
    match (← get).pool.add i j with
    | .ok pool => do
      modify fun s => { s with pool := pool }
      setValue path (pool.size - 1)
    | .error fault => throw fault
  else if operator.isKind .subOp then throw ValueInfo.noDifference
  else throw (.unknownOperator (operatorClass operator))

/-- Every target of a multiple assignment gets a new value. -/
def assignAll (path : List Step) : Nat → List Tree → Infer Unit
  | _, [] => return ()
  | i, t :: ts => do
    if !t.isNode then throw (.missingAttribute t.className "val")
    setValue (path ++ [.item i]) (← fresh .unknown)
    assignAll path (i + 1) ts

/-- The targets of an assignment. -/
def targetItems (targets : Tree) : Infer (List Tree) :=
  match targets.items with
  | .ok ts => return ts
  | .error _ => throw (.noLength targets.className)

/-- What an assignment does after its parts have been visited: a single target has to be a name
and takes the value. -/
def finishAssign (path : List Step) (targets value : Tree) : Infer Unit := do
  match ← targetItems targets with
  | [target] => do
    if !target.isKind .name then throw .violated
    let i ← valueOf (path ++ [.field "value"]) value
    setValue (path ++ [.field "targets", .item 0]) i
    match target.get? "id" with
    | some (.atom a) => assign a i
    | some (.list _) => throw (.notHashable "list")
    | _ => discard environment
  | ts => assignAll (path ++ [.field "targets"]) 0 ts

mutual

/-- Visits a node; `haveScopes` tells whether the scopes of modules have been built. Of constants,
only numbers and texts have values. -/
def visit (haveScopes : Bool) (path : List Step) : Tree → Infer Unit
  | .atom a => throw (.unsupportedNode a.className)
  | .list _ => throw (.unsupportedNode "list")
  | .node k s fields =>
    match k, fields with
    | .module, fields => do
      if !haveScopes then throw (.missingAttribute k.className "scope")
      enter
      visitFields haveScopes path k.fields fields
      leave
    | .assign, fields => do
      visitFields haveScopes path k.fields fields
      match fields with
      | targets :: value :: _ => finishAssign path targets value
      | _ => throw (.missingAttribute k.className "targets")
    | .name, id :: _ => visitName path id
    | .exprStmt, fields => visitFields haveScopes path k.fields fields
    | .binOp, [left, operator, right] => do
      visit haveScopes (path ++ [.field "left"]) left
      visit haveScopes (path ++ [.field "right"]) right
      combine path (path ++ [.field "left"]) (path ++ [.field "right"]) left operator right
    | .constant, fields =>
      match (Tree.node k s fields).literalConstant? with
      | some a => do setValue path (← fresh (.known a))
      | none => visitFields haveScopes path k.fields fields
    | k, _ => throw (.unsupportedNode k.className)

/-- Visits the nodes in the fields of a node. Scopes are not built in type comments. -/
def visitFields (haveScopes : Bool) (path : List Step) : List String → List Tree → Infer Unit
  | name :: names, field :: fields => do
    let haveScopesHere := haveScopes && name != "type_comment"
    match field with
      | .list items => visitItems haveScopesHere (path ++ [.field name]) 0 items
      | .atom _ => pure ()
      | t => visit haveScopesHere (path ++ [.field name]) t
    visitFields haveScopes path names fields
  | _, _ => return ()

def visitItems (haveScopes : Bool) (path : List Step) (i : Nat) : List Tree → Infer Unit
  | [] => return ()
  | t :: ts => do
    if t.isNode then visit haveScopes (path ++ [.item i]) t
    visitItems haveScopes path (i + 1) ts

end

end Infer

/-- Infers the values of a tree: how it ended, and what was inferred. -/
def Tree.infer (t : Tree) (haveScopes : Bool) : Except Fault Unit × Inference :=
  (Infer.visit haveScopes [] t).run Inference.start

/-- The nodes that have a value, with its text. -/
def Inference.valueTexts (s : Inference) (t : Tree) : List (Tree × Except Fault String) :=
  t.sites.filterMap fun site =>
    (s.valueAt? site.path).map fun i => (site.tree, s.pool.text i)

end ScopeLint

import ScopeLint.Scope.Resolve
import ScopeLint.Scope.Visit

/-! The scopes of a tree. The events of a visit are run on a forest with a stack of open scopes;
a scope is resolved when it is left, and the whole is frozen at the end. -/

namespace ScopeLint

/-- A forest under construction, with the open scopes, the innermost first. -/
structure Workshop where
  forest : Forest
  stack : List Nat

namespace Workshop

def start : Workshop := ⟨Forest.empty, []⟩

/-- Makes a change in the forest. -/
def change {α : Type} (w : Workshop) (c : Change α) : Except Fault (α × Workshop) :=
  match c.run w.forest with
  | (.ok a, f) => .ok (a, { w with forest := f })
  | (.error fault, _) => .error fault

/-- Does something with the innermost open scope; without one, what was asked for is missing. -/
def onCurrent (w : Workshop) (asked : String) (c : Nat → Change Unit) : Except Fault Workshop :=
  match w.stack with
  | [] => .error (.missingAttribute "NoneType" asked)
  | i :: _ => (w.change (c i)).map Prod.snd

def step (w : Workshop) : Event → Except Fault Workshop
  | .enter owner => do
    let (i, w) ← w.change (Change.create w.stack.head? owner)
    return { w with stack := i :: w.stack }
  | .leave => do
    let w ← w.onCurrent "resolve" Change.resolve
    return { w with stack := w.stack.tail }
  | .occur name site => w.onCurrent "add" fun i =>
    match name with
    | some name => Change.add i name site
    | none => throw .violated
  | .declareGlobal names => w.onCurrent "make_global" fun i => Change.declareGlobal i names
  | .importing site => w.onCurrent "imports" fun i =>
    Change.update i fun s => { s with imports := s.imports ++ [site] }
  | .importsAll => w.onCurrent "has_stars" fun i =>
    Change.update i fun s => { s with hasStars := true }
  | .importsFuture names => w.onCurrent "future" fun i =>
    Change.update i fun s =>
      { s with future := s.future ++ names.filter fun n => !s.future.any n.valueEq }
  | .fail fault => .error fault

def run (w : Workshop) (events : List Event) : Except Fault Workshop := events.foldlM step w

end Workshop

namespace Tree

/-- The forest of the scopes of a tree before it is frozen. -/
def openScopes (t : Tree) : Except Fault Forest := do
  t.requireNode
  let w ← Workshop.start.run (t.events .start)
  return w.forest

/-- Whether visiting a node of a kind opens a scope for it. -/
def ownsScope (t : Tree) : Bool := t.isOneOf [.module, .classDef, .functionDef, .lambda]

/-- The scopes of a module, that of the module itself being the first. Other trees have none that
could be frozen. -/
def scopes (t : Tree) : Except Fault Forest := do
  let f ← t.openScopes
  if !t.ownsScope then throw (.missingAttribute t.className "scope")
  if !t.isKind .module then throw .violated
  match (Change.freeze 0).run f with
  | (.ok (), f) => return f
  | (.error fault, _) => throw fault

end Tree

end ScopeLint

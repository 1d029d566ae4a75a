import ScopeLint.Project.FileSet
import ScopeLint.Tree.Role

/-! The views that a urlconf refers to. A urlconf lists them in calls of `patterns`, whose first
argument is put before each of them, or else in calls of `url`. A urlconf that is included brings
its own references, and `urlpatterns` in it counts as referred to. -/

namespace ScopeLint.Urlconf

/-- The parts of a value that has a length. -/
def parts (t : Tree) : Except Fault (List Tree) :=
  match t.items with
  | .ok ts => .ok ts
  | .error _ => .error (.noLength t.className)

/-- The positional arguments of a call. -/
def arguments (t : Tree) : Except Fault (List Tree) := do parts (← t.get "args")

/-- The text that is an argument of a call. -/
def textArgument? (t : Tree) (i : Nat) : Except Fault (Option String) := do
  return (← arguments t)[i]?.bind Tree.stringConstant?

/-- The view of a record, which is the second argument of a call or the second item of a tuple. -/
def recordView? (t : Tree) : Except Fault (Option Tree) := do
  if t.isKind .call then return (← arguments t)[1]?
  else if t.isKind .tuple then return (← parts (← t.get "elts"))[1]?
  else return none

/-- What a record of a urlconf lists. -/
inductive Listed where
  | view (ref : String)
  | include (module : String)
  | nothing
deriving DecidableEq

/-- What a node lists as a record. -/
def listed (t : Tree) : Except Fault Listed := do
  match ← recordView? t with
  | none => return .nothing
  | some view =>
    match view.stringConstant? with
    | some s => return .view s
    | none =>
      if view.isCallOf "include" then
        match ← textArgument? view 0 with
        | some module => return .include module
        | none => return .nothing
      else return .nothing

def patternCalls (nodes : List Tree) : List Tree := nodes.filter fun n => n.isCallOf "patterns"

/-- The texts that the calls of a function have as an argument. -/
def callTexts (function : String) (i : Nat) (nodes : List Tree) : Except Fault (List String) := do
  let texts ← (nodes.filter fun n => n.isCallOf function).mapM fun n => textArgument? n i
  return texts.filterMap id

/-- The views that the calls of `url` name. -/
def plainViews (nodes : List Tree) : Except Fault (List String) := callTexts "url" 1 nodes

def plainIncludes (nodes : List Tree) : Except Fault (List String) := callTexts "include" 0 nodes

/-- A reference below a module, if that is named. -/
def qualify (module ref : String) : String := if module.isEmpty then ref else module ++ "." ++ ref

/-- The references of an included urlconf. -/
def included (fs : FileSet) (refs : SourceFile → Except Fault (List String)) (module : String) :
    Except Fault (List String) :=
  match fs.get? module with
  | none => .ok []
  | some file => do return (module ++ ".urlpatterns") :: (← refs file)

/-- The references of a call of `patterns`, which needs a text as its first argument. -/
def patternRefs (fs : FileSet) (refs : SourceFile → Except Fault (List String)) (call : Tree) :
    Except Fault (List String) := do
  if (← arguments call).length < 2 then return []
  match ← textArgument? call 0 with
  | none => return []
  | some module =>
    let parts ← (← call.walk).mapM fun n => do
      match ← listed n with
      | .view ref => return [ref]
      | .include m => included fs refs m
      | .nothing => return []
    return parts.flatten.map (qualify module)

/-- The references of a urlconf, with includes followed at most `fuel` deep. -/
def refsWithin (fs : FileSet) : Nat → SourceFile → Except Fault (List String)
  | 0, _ => .error .endless
  | fuel + 1, file => do
    let nodes ← (← file.tree).walk
    let calls := patternCalls nodes
    if !calls.isEmpty then
      let parts ← calls.mapM (patternRefs fs (refsWithin fs fuel))
      return parts.flatten
    else
      let views ← plainViews nodes
      let parts ← (← plainIncludes nodes).mapM (included fs (refsWithin fs fuel))
      return views ++ parts.flatten

/-- The references of a urlconf. A chain of includes longer than the number of files comes back to
a urlconf that it has passed, and so does not end. -/
def refs (fs : FileSet) (file : SourceFile) : Except Fault (List String) :=
  refsWithin fs (fs.files.length + 1) file

end ScopeLint.Urlconf

import ScopeLint.Scope.Resolve

/-! The names that a module exports by its `__all__`. The first occurrence of `__all__` decides:
it has to be the only target of an assignment of a literal. -/

namespace ScopeLint

/-- What a scope exports: `none` is a module that does not say so. The warning is set when the
module has an `__all__` that could not be understood. -/
structure Exports where
  value : Option Literal
  warns : Bool

namespace Exports

def warning : String := "WARN: failed parsing __all__"

def unclear : Exports := ⟨none, true⟩

/-- The value of an `__all__` at a place in a tree. -/
def ofSite (site : Site) : Except Fault Exports := do
  let statement ← site.parent
  if !statement.isKind .assign then return unclear
  let count ← (← statement.get "targets").length
  if count ≠ 1 then return unclear
  match (← statement.get "value").literal with
  | .ok l => return ⟨some l, false⟩
  | .error (.notLiteral _) => return unclear
  | .error fault => throw fault

end Exports

/-- The exports of a scope. Scopes that are no modules export nothing. -/
def Scope.exports (s : Scope) : Except Fault Exports :=
  if !s.isModule then .ok ⟨some (.list []), false⟩
  else match s.names.get? "__all__" with
  | none => .ok ⟨none, false⟩
  | some [] => .error (if s.closed then .noEntry else .noElement)
  | some (site :: _) => Exports.ofSite site

/-- The exports of a scope, which stay as they are from the first time they are found. The flag
tells whether there is something to warn about now. -/
def Change.exports (i : Nat) : Change (Option Literal × Bool) := do
  let s ← scope i
  match s.exported with
  | some value => return (value, false)
  | none =>
    let found ← lift s.exports
    update i fun s => { s with exported := some found.value }
    return (found.value, found.warns)

end ScopeLint

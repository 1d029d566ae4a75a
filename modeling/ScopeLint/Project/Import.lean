import ScopeLint.Project.FileSet

/-! What imports refer to, and which attributes of an imported module are used. -/

namespace ScopeLint

/-- What is left of the name of a file `level` steps up. A step too many leaves nothing. -/
def ancestors (dotname : String) (level : Int) : List String :=
  let parts := Text.dottedParts dotname
  parts.take (if level < 0 then level.natAbs else parts.length - level.natAbs)

/-- The module that lies `level` steps up from a file, and `module` further down, if that is not
empty. -/
def relativeModule (dotname : String) (module : Tree) (level : Int) : Except Fault String :=
  let parts := ancestors dotname level
  match module with
  | .atom (.str m) => .ok (".".intercalate (if m.isEmpty then parts else parts ++ [m]))
  | t =>
    if t.truth then .error (.notJoinable parts.length t.className) else .ok (".".intercalate parts)

/-- The level of an import as a whole number. -/
def importLevel : Tree → Except Fault Int
  | .atom (.int n) => .ok n
  | .atom (.bool b) => .ok (if b then 1 else 0)
  | .atom (.float _) | .atom (.complex _ _) => .error .badBound
  | t => .error (.notNegatable t.className)

/-- The module that an import statement imports from. Without a level it may be a neighbour of the
file, unless the file asks for absolute imports. -/
def importedModule (fs : FileSet) (file : SourceFile) (t : Tree) : Except Fault Tree := do
  let level ← t.get "level"
  let module ← t.get "module"
  if level.truth then
    return .atom (.str (← relativeModule file.dotname module (← importLevel level)))
  let scope ← file.moduleScope
  if !scope.future.any (Atom.valueEq (.str "absolute_import")) then
    let neighbour ← relativeModule file.dotname module 1
    if fs.contains neighbour then return .atom (.str neighbour)
  return module

/-- Goes up from a node of a class while the nodes around are the attribute `part`. -/
def climb (part className : String) : List Tree → Except Fault (String × List Tree)
  | [] => .error (.missingAttribute className "up")
  | up :: rest =>
    if up.isKind .attribute && (up.get? "attr").any (fun a => a.str? == some part) then
      climb part up.className rest
    else .ok (className, up :: rest)

/-- The attribute that is taken of the value of a dotted expression, of which the name at a site
is the first part. -/
def attributeAfter (expr : String) (site : Site) : Except Fault (Option Tree) := do
  let (className, above) ← match (Text.dottedParts expr).tail with
    | [] => pure (site.tree.className, site.above)
    | part :: _ => climb part site.tree.className site.above
  match above with
  | [] => throw (.missingAttribute className "up")
  | up :: _ => if up.isKind .attribute then return up.get? "attr" else return none

/-- The items of an import statement. -/
def importedItems (t : Tree) : Except Fault (List Tree) := do (← t.get "names").items

/-- The imports of a whole set of files: package, line and module of each import from a module. -/
def FileSet.importedModules (fs : FileSet) :
    Except Fault (List (String × Tree × Tree)) := do
  let rows ← fs.files.mapM fun (_, file) => do
    let forest ← file.scopes
    let sites := (forest.walk 0).flatMap fun i => ((forest.scope? i).map Scope.imports).getD []
    (sites.filter fun s => s.tree.isKind .importFrom).mapM fun s => do
      return (file.package, ← s.tree.get "lineno", ← importedModule fs file s.tree)
  return rows.flatten

end ScopeLint

import ScopeLint.Project.Import
import ScopeLint.Usage.Session

/-! Names of modules that no file of a project uses. A name counts as used when it is imported,
when it is reached through a star import or as an attribute of an imported module, when its own
module uses it, and when an entry point exports it. -/

namespace ScopeLint.Usage

/-- Names that are never reported. -/
def ignoredNames : List String := ["__all__", "__file__", "__name__", "__version__", "__author__"]

/-- The items of what a package exports as marks; lists cannot be names. -/
def exportMarks (package : String) (exports : Literal) : Except Fault (List Mark) := do
  (← exports.items).zipIdx.mapM fun
    | (.atom a, i) => .ok ⟨a, some (package, [.field "__all__", .item i])⟩
    | (l, _) => .error (.notHashable l.className)

/-- The marks that are in both lists, as they stand in the shorter one. -/
def intersect (left right : List Mark) : List Mark :=
  if left.length < right.length then left.filter fun m => right.any m.same
  else right.filter fun m => left.any m.same

/-- The literals of names. -/
def literalNames (names : List String) : Literal := .list (names.map fun n => .atom (.str n))

/-- Whether a file uses a name that a star import may have brought into a scope. -/
def usesStar (scope : Scope) (m : Mark) : Bool :=
  match m.name with
  | .str name => (scope.starSites name).any fun s => s.tree.isUse
  | _ => false

/-- The names that a star import brings. A module that does not say what it exports is remarked on. -/
def starExports (file : SourceFile) (node : Tree) (module : String) (source : SourceFile) :
    Run Literal := do
  let scope ← Run.lift source.moduleScope
  match ← Run.exports module 0 scope with
  | some l => return l
  | none =>
    Run.print (file.filename ++ ":" ++ (← Run.lift node.lineText)
      ++ ": star import with no __all__ in " ++ module)
    return literalNames (← Run.lift ((← Run.lift source.scopes).implicitExports 0))

/-- Marks what a star import brings into a file. In an entry point this is what the file exports
itself, or else everything; elsewhere it is what the file uses. -/
def markStar (fs : FileSet) (file : SourceFile) (scope : Scope) (node : Tree) (module : String) :
    Run Unit := do
  let source ← Run.lift (fs.get module)
  let exports ← starExports file node module source
  if file.isEntry then
    let own ← Run.exports file.package 0 (← Run.lift file.moduleScope)
    let marks ← Run.lift (exportMarks module exports)
    match own with
    | some own =>
      if own.truth then
        let right ← Run.lift (exportMarks file.package own)
        (intersect (Mark.distinct marks) (Mark.distinct right)).forM (Run.mark module)
      else marks.forM (Run.mark module)
    | none => marks.forM (Run.mark module)
  else
    let marks ← Run.lift (exportMarks module exports)
    (marks.filter (usesStar scope)).forM (Run.mark module)

/-- The occurrences of a name in a scope, which must have an entry for it. -/
def sitesOf (scope : Scope) (name : String) : Except Fault (List Site) :=
  match scope.names.get? name with
  | some sites => .ok sites
  | none => .error (.missingName name)

/-- Marks the attributes that are taken directly of an imported module at some sites of a file. -/
def markAttributes (file : SourceFile) (package : String) (sites : List Site) : Run Unit :=
  sites.forM fun site => do
    let up ← Run.lift site.parent
    if up.isKind .attribute then
      Run.markTree package (some (file.package, site.path)) (← Run.lift (up.get "attr"))

/-- Marks the names that are imported from a module, if that is a file of the project. -/
def markNames (fs : FileSet) (file : SourceFile) (scope : Scope) (node module : Tree)
    (items : List Tree) : Run Unit := do
  if let some m := ← Run.lift (fs.find? module) then
    let names ← items.mapM fun item => Run.lift (item.get "name")
    names.forM (Run.markTree m none)
    if names.any fun n => n.str? == some "*" then markStar fs file scope node m

/-- Marks the attributes that are taken of modules that are imported from a package. -/
def markMembers (fs : FileSet) (file : SourceFile) (scope : Scope) (module : Tree)
    (items : List Tree) : Run Unit :=
  items.forM fun item => do
    let full := module.print ++ "." ++ (← Run.lift (item.get "name")).print
    if fs.contains full then
      let bound ← Run.lift item.boundName
      markAttributes file full (← Run.lift (sitesOf scope bound.print))

/-- Marks what an import from a module uses. -/
def markImportFrom (fs : FileSet) (file : SourceFile) (scope : Scope) (node : Tree) :
    Run Unit := do
  let module ← Run.lift (importedModule fs file node)
  let items ← Run.lift (importedItems node)
  markNames fs file scope node module items
  markMembers fs file scope module items

/-- Marks the attribute that is taken of an imported module at a site. -/
def markDotted (file : SourceFile) (package bound : String) (site : Site) : Run Unit := do
  if let some t := ← Run.lift (attributeAfter bound site) then
    if t.truth then Run.markTree package (some (file.package, site.path)) t

/-- Marks what an import of modules uses: the attributes taken of each. -/
def markImport (fs : FileSet) (file : SourceFile) (scope : Scope) (node : Tree) : Run Unit := do
  (← Run.lift (importedItems node)).forM fun item => do
    let name ← Run.lift (item.get "name")
    if let some package := ← Run.lift (fs.find? name) then
      let bound := (← Run.lift item.boundName).print
      let sites ← Run.lift (sitesOf scope ((Text.dottedParts bound).headD ""))
      (sites.drop 1).forM (markDotted file package bound)

/-- Marks what the imports of a file use of other files. -/
def markImports (fs : FileSet) (file : SourceFile) (forest : Forest) : Run Unit :=
  (forest.walk 0).forM fun i =>
    match forest.scope? i with
    | none => return ()
    | some scope => scope.imports.forM fun site =>
      if site.tree.isKind .importFrom then markImportFrom fs file scope site.tree
      else if site.tree.isKind .importStmt then markImport fs file scope site.tree
      else return ()

/-- Marks what a module uses of its own names. -/
def markOwn (package : String) (scope : Scope) : Run Unit :=
  scope.names.forM fun (name, sites) => do
    if sites.any fun s => s.tree.isUse then Run.markText package name

/-- Marks what an entry point exports. -/
def markExported (package : String) (file : SourceFile) (forest : Forest) (scope : Scope) :
    Run Unit := do
  match ← Run.exports file.package 0 scope with
  | some l =>
    if l.truth then (← Run.lift (exportMarks package l)).forM (Run.mark package)
    else Run.markTexts package (← Run.lift (forest.implicitExports 0))
  | none => Run.markTexts package (← Run.lift (forest.implicitExports 0))

/-- Marks what a file uses, of itself and of other files. -/
def markFile (fs : FileSet) (package : String) (file : SourceFile) : Run Unit := do
  let forest ← Run.lift file.scopes
  markImports fs file forest
  let scope ← Run.lift file.moduleScope
  markOwn package scope
  if file.isEntry then markExported package file forest scope

/-- Marks what the files of a project use. -/
def markAll (fs : FileSet) : Run Unit :=
  fs.sorted.forM fun (package, file) => markFile fs package file

/-- Reports a name of a module that has not been marked. -/
def reportName (package : String) (file : SourceFile) (name : Atom) (sites : List Site) :
    Run Unit := do
  if !(← get).used.contains package ⟨name, none⟩ && !ignoredNames.contains name.text then
    let first ← Run.firstOf sites
    Run.print (file.filename ++ ":" ++ (← Run.lift first.tree.lineText) ++ ": "
      ++ first.tree.role ++ " " ++ name.text ++ " is never used (globally)")

/-- Reports the names of modules that have not been marked. -/
def reportUnused (fs : FileSet) : Run Unit :=
  fs.sorted.forM fun (package, file) => do
    (← Run.lift file.moduleScope).entries.forM fun (name, sites) =>
      reportName package file name sites

end ScopeLint.Usage

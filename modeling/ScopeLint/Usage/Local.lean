import ScopeLint.Usage.Session

/-! Names that are undefined or unused within a file. A name is undefined in a scope that only
uses it, and unused in a scope that only writes it; what a module exports and what looks like
part of an interface is not reported. -/

namespace ScopeLint.Usage

/-- Whether all sites bind the name. -/
def allWrites : List Site → Except Fault Bool
  | [] => .ok true
  | site :: rest => do
    if ← site.tree.isWrite then allWrites rest else return false

/-- Whether a literal has a name in it. A text has the texts that are parts of it. -/
def literalContains (name : String) : Literal → Except Fault Bool
  | .list items => .ok (items.any fun
    | .atom a => a.valueEq (.str name)
    | .list _ => false)
  | .atom (.str s) => .ok ((s.splitOn name).length ≠ 1 || name.isEmpty)
  | .atom a => .error (.notContainer a.className)

/-- Whether an unused name is let pass. -/
def excused (package : String) (i : Nat) (s : Scope) (name : String) (site : Site) : Run Bool := do
  if name = "_" || (s.isModule && Text.isDunder name) then return true
  match ← Run.exports package i s with
  | some exports =>
    if ← Run.lift (literalContains name exports) then return true
  | none =>
    if !name.startsWith "_" && !site.tree.isImport then return true
  return site.tree.isParam

/-- The reports on one name of a scope. -/
def checkName (file : SourceFile) (forest : Forest) (i : Nat) (s : Scope) (name : String)
    (sites : List Site) : Run Unit := do
  let first ← Run.firstOf sites
  if sites.all (fun t => t.tree.isUse) && !s.isGlobal name && !forest.seesStars i then
    Run.print (file.filename ++ ":" ++ (← Run.lift first.tree.placeText)
      ++ ": undefined variable " ++ name)
  if !s.isClass then
    if ← Run.lift (allWrites sites) then
      unless ← excused file.package i s name first do
        Run.print (file.filename ++ ":" ++ (← Run.lift first.tree.placeText) ++ ": "
          ++ first.tree.role ++ " " ++ name ++ " is never used")

/-- The reports on all names of a file. -/
def checkFile (file : SourceFile) : Run Unit := do
  let forest ← Run.lift file.scopes
  (forest.entries 0).forM fun (i, name, sites) => do
    match forest.scope? i, name with
    | some s, .str name => checkName file forest i s name sites
    | _, _ => discard (Run.firstOf sites)

/-- The reports on all files, by package. -/
def checkLocal (fs : FileSet) : Run Unit := fs.sorted.forM fun (_, file) => checkFile file

end ScopeLint.Usage

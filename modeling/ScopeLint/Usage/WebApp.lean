import ScopeLint.Usage.Session
import ScopeLint.Usage.Urlconf

/-! What a web framework uses of a project by its own conventions: settings in capitals and what
they name, views of urlconfs, application configurations, migrations, commands, and definitions
that are registered by a decorator. -/

namespace ScopeLint.WebApp

/-- The packages of the settings and of the root urlconf, as far as they are given. -/
structure Options where
  settings : Option String
  urlconf : Option String

/-- Splits a reference at its last point. -/
def splitRef (ref : String) : Except Fault (String × String) :=
  match (Text.dottedParts ref).reverse with
  | last :: before@(_ :: _) => .ok (".".intercalate before.reverse, last)
  | _ => .error .noModulePart

/-- Marks what references name in the files of the project. -/
def markRefs (fs : FileSet) (refs : List String) : Run Unit :=
  refs.forM fun ref => do
    let (module, name) ← Run.lift (splitRef ref)
    if fs.contains module then Run.markText module name

/-! ### Settings -/

def settingsFile? (fs : FileSet) (options : Options) : Option SourceFile :=
  options.settings.bind fs.get?

/-- The dotted paths that stand as texts in a value. -/
def dottedTexts (value : Tree) : Except Fault (List String) := do
  return ((← value.walk).filterMap Tree.stringConstant?).filter Text.isDottedPath

/-- Settings in capitals are used, and so is what their values name. -/
def markSettings (fs : FileSet) (file : SourceFile) : Run Unit := do
  (← Run.lift file.moduleScope).entries.forM fun (name, sites) => do
    let site ← Run.firstOf sites
    if site.tree.isStore && site.tree.isConstantName then
      Run.markText file.package name.text
      let up ← Run.lift site.parent
      if up.isKind .assign then
        markRefs fs (← Run.lift (do dottedTexts (← up.get "value")))

/-! ### Urlconfs -/

/-- The literal that is assigned to a name at a site. -/
def assignedLiteral (site : Site) : Except Fault Literal := do
  if !site.tree.isKind .name then throw .violated
  let up ← site.parent
  if !up.isKind .assign then throw .violated
  if (← (← up.get "targets").length) ≠ 1 then throw .violated
  (← up.get "value").literal

/-- The root urlconf that the settings name, if it is a file of the project. -/
def rootUrlconf (fs : FileSet) (settings : SourceFile) : Run (List String) := do
  let scope ← Run.lift settings.moduleScope
  match scope.names.get? "ROOT_URLCONF" with
  | none => throw (.missingName "ROOT_URLCONF")
  | some sites =>
    let site ← Run.firstOf sites
    match ← Run.lift (assignedLiteral site) with
    | .atom (.str name) => return if fs.contains name then [name] else []
    | .atom _ => return []
    | l => throw (.notHashable l.className)

/-- The root urlconfs: what the settings name, and what is given. -/
def rootUrlconfs (fs : FileSet) (options : Options) : Run (List String) := do
  let given := match options.urlconf with
    | some u => if u.isEmpty then [] else [u]
    | none => []
  match settingsFile? fs options with
  | some settings => return (← rootUrlconf fs settings) ++ given
  | none => return given

def markViews (fs : FileSet) (options : Options) : Run Unit := do
  (← rootUrlconfs fs options).forM fun urlconf => do
    Run.markText urlconf "urlpatterns"
    let file ← Run.lift (fs.get urlconf)
    markRefs fs (← Run.lift (Urlconf.refs fs file))

/-! ### Other conventions -/

/-- The name of an application configuration, which has to be a reference. -/
def markAppConfig (fs : FileSet) (package : String) (file : SourceFile) : Run Unit := do
  match (← Run.lift file.moduleScope).names.get? "default_app_config" with
  | none => return ()
  | some sites =>
    Run.markText package "default_app_config"
    let site ← Run.firstOf sites
    let value ← Run.lift (do (← site.parent).get "value")
    match ← Run.lift value.literal with
    | .atom (.str ref) => markRefs fs [ref]
    | l => throw (.missingAttribute l.className "rsplit")

def hasPart (part package : String) : Bool := (package.splitOn part).length ≠ 1

/-- Marks some names of the packages that have a part. -/
def markWithin (fs : FileSet) (part : String) (names : List String) : Run Unit :=
  fs.files.forM fun (package, _) => do
    if hasPart part package then Run.markTexts package names

def registerNames : List String := ["register", "library", "receiver"]

/-- Whether a value is the name of a registry. Lists cannot be looked up. -/
def isRegistry : Option Tree → Except Fault Bool
  | some (.atom (.str s)) => .ok (registerNames.contains s)
  | some (.list _) => .error (.notHashable "list")
  | _ => .ok false

/-- Whether a node names a registry. -/
def isRegister (t : Tree) : Except Fault Bool :=
  if t.isKind .name then isRegistry (t.get? "id")
  else if t.isKind .attribute then isRegistry (t.get? "attr")
  else .ok false

/-- Whether one of some nodes names a registry. The ones after it are not looked at. -/
def anyRegister : List Tree → Except Fault Bool
  | [] => .ok false
  | t :: ts => do
    if ← isRegister t then return true else anyRegister ts

/-- Whether one of some decorators names a registry. The ones after it are not looked at. -/
def registers : List Tree → Except Fault Bool
  | [] => .ok false
  | t :: ts => do
    if ← anyRegister (← t.walk) then return true else registers ts

/-- Marks the definitions of a file that are registered by a decorator. -/
def markRegistered (package : String) (file : SourceFile) : Run Unit := do
  (← Run.lift file.moduleScope).entries.forM fun (name, sites) => do
    let site ← Run.firstOf sites
    if site.tree.isDefinition then
      let decorators ← Run.lift (do (← site.tree.get "decorator_list").items)
      if ← Run.lift (registers decorators) then Run.markText package name.text

/-- Marks all that the framework uses. -/
def markAll (fs : FileSet) (options : Options) : Run Unit := do
  (settingsFile? fs options).forM (markSettings fs)
  markViews fs options
  fs.files.forM fun (package, file) => markAppConfig fs package file
  markWithin fs "migrations." ["Migration", "models"]
  markWithin fs "management.commands." ["Command"]
  fs.files.forM fun (package, file) => markRegistered package file

end ScopeLint.WebApp

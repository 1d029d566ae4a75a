import ScopeLint.Project.Disk
import ScopeLint.Scope.Build

/-! The files of a project by their packages. The package of a file is its path from a base
directory with points between the parts; a package directory goes by its own name. -/

namespace ScopeLint

/-- The names of a file: `dotname` is its path with points, and in `package` a final `__init__`
is dropped. -/
structure PackageName where
  package : String
  dotname : String
deriving DecidableEq

/-- Drops an ending, also one that stands before a line break at the very end. -/
def dropEnding (ending s : String) : String :=
  let cut (cs : List Char) : Option (List Char) :=
    if ending.toList.isSuffixOf cs then some (cs.take (cs.length - ending.length)) else none
  let cs := s.toList
  match cut cs with
  | some front => String.ofList front
  | none =>
    if cs.getLast? = some '\n' then
      match cut cs.dropLast with
      | some front => String.ofList (front ++ ['\n'])
      | none => s
    else s

namespace PackageName

/-- The names for a path from the base directory. -/
def ofPath (path : String) : PackageName :=
  let cs := path.toList
  let path := match cs with
    | '.' :: '/' :: rest => String.ofList rest
    | _ => path
  let dotname := String.ofList ((dropEnding ".py" path).toList.map fun c =>
    if c = '/' then '.' else c)
  ⟨dropEnding ".__init__" dotname, dotname⟩

end PackageName

structure SourceFile where
  base : String
  filename : String
  isEntry : Bool
  names : PackageName
  tree : Except Fault Tree
  scopes : Except Fault Forest

namespace SourceFile

/-- A file of a disk, seen from a base directory. -/
def load (disk : Disk) (base filename : String) (isEntry : Bool) : SourceFile :=
  let tree := disk.read filename
  ⟨base, filename, isEntry, PackageName.ofPath (Path.relative disk.here filename base), tree,
    tree.bind Tree.scopes⟩

def package (f : SourceFile) : String := f.names.package

def dotname (f : SourceFile) : String := f.names.dotname

/-- A short description. -/
def text (f : SourceFile) : String := "<File: " ++ f.filename ++ ">"

/-- The scope of the module. -/
def moduleScope (f : SourceFile) : Except Fault Scope := do
  match (← f.scopes).scope? 0 with
  | some s => return s
  | none => throw .noElement

end SourceFile

/-- The files by package, in the order in which the packages came first. -/
structure FileSet where
  files : List (String × SourceFile)

namespace FileSet

def empty : FileSet := ⟨[]⟩

def get? (fs : FileSet) (package : String) : Option SourceFile := fs.files.lookup package

def contains (fs : FileSet) (package : String) : Bool := fs.files.any fun e => e.1 == package

/-- The package that a value names, if it is one of the set. Lists name nothing and cannot be looked
up. -/
def find? (fs : FileSet) : Tree → Except Fault (Option String)
  | .atom (.str s) => .ok (if fs.contains s then some s else none)
  | .list _ => .error (.notHashable "list")
  | _ => .ok none

def get (fs : FileSet) (package : String) : Except Fault SourceFile :=
  match fs.get? package with
  | some f => .ok f
  | none => .error (.missingName package)

/-- Adds a file. One of the same package is replaced and keeps its place. -/
def insert (fs : FileSet) (f : SourceFile) : FileSet :=
  if fs.contains f.package then
    ⟨fs.files.map fun e => if e.1 = f.package then (e.1, f) else e⟩
  else ⟨fs.files ++ [(f.package, f)]⟩

/-- The files by package name. -/
def sorted (fs : FileSet) : List (String × SourceFile) :=
  fs.files.mergeSort fun a b => a.1 ≤ b.1

/-- How files are collected: the base directory, a pattern for the files to leave out, and the
packages that are entry points, with commas between them. -/
structure Options where
  base : Option String
  ignore : Option String
  entryPoints : Option String

namespace Options

/-- The pattern of the files to leave out, if there is one. -/
def ignorePattern (o : Options) : Except Fault (Option Pattern) :=
  match o.ignore with
  | none => .ok none
  | some s =>
    if s.isEmpty then .ok none
    else match Pattern.ofText s with
      | .ok p => .ok (some p)
      | .error e => .error (.badPattern e)

def entryPackages (o : Options) : List String := (o.entryPoints.getD "").splitOn ","

end Options

/-- What a root stands for: its directory, its entry point, and its files. -/
structure Root where
  directory : String
  entry : Option String
  files : List String

/-- A program file is its own entry point; a package directory has one. -/
def Root.ofPath (disk : Disk) (path : String) : Root :=
  if path.endsWith ".py" then ⟨Path.dirname path, some path, [path]⟩
  else
    let entry := Path.join path "__init__.py"
    ⟨path, if disk.isFile entry then some entry else none, disk.programFiles path⟩

/-- The base directory that a root suggests: that of the first package directory counts. -/
def guessBase (base : Option String) (path : String) (root : Root) : Option String :=
  if base.isSome || path.endsWith ".py" || root.entry.isNone then base
  else
    let dir := Path.dirname (Path.normalize path)
    some (if dir.isEmpty then "." else dir)

/-- Adds the files of a root. -/
def addRoot (disk : Disk) (ignore : Option Pattern) (entries : List String)
    (state : Option String × FileSet) (path : String) : Option String × FileSet :=
  let root := Root.ofPath disk path
  let base := guessBase state.1 path root
  let start := match base with
    | some b => if b.isEmpty then root.directory else b
    | none => root.directory
  let kept := root.files.filter fun f => !(ignore.any fun p => p.foundIn f)
  let fs := kept.foldl (fun fs filename =>
    let file := SourceFile.load disk start filename (root.entry == some filename)
    fs.insert { file with isEntry := file.isEntry || entries.contains file.package }) state.2
  (base, fs)

/-- The files of some roots. The base directory that one root suggests holds for the next ones. -/
def collect (disk : Disk) (options : Options) (roots : List String) : Except Fault FileSet := do
  let ignore ← options.ignorePattern
  let step := addRoot disk ignore options.entryPackages
  return (roots.foldl step (options.base, empty)).2

end FileSet

end ScopeLint

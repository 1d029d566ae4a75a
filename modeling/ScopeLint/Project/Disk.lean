import ScopeLint.Text.Path
import ScopeLint.Tree.Site

/-! Directories and files. A file holds a syntax tree, or text that is no program. Directories
keep their entries by name. Paths that are not absolute start at the working directory, which
stands directly below the root. -/

namespace ScopeLint

inductive Entry where
  | file (name : String) (content : Option Tree)
  | directory (name : String) (entries : List Entry)

namespace Entry

def name : Entry → String
  | file n _ => n
  | directory n _ => n

/-- Puts an entry in its place by name; one of the same name is replaced. -/
def insert (e : Entry) : List Entry → List Entry
  | [] => [e]
  | d :: rest =>
    if d.name = e.name then e :: rest
    else if e.name < d.name then e :: d :: rest
    else d :: insert e rest

def find? (name : String) (entries : List Entry) : Option Entry :=
  entries.find? fun e => e.name == name

/-- The entries of a directory among others; there are none if it is missing. -/
def entriesOf (name : String) (entries : List Entry) : List Entry :=
  match find? name entries with
  | some (directory _ es) => es
  | _ => []

/-- Makes a directory below some entries, and the directories on the way. -/
def makeDirectory : List String → List Entry → List Entry
  | [], entries => entries
  | name :: rest, entries =>
    insert (directory name (makeDirectory rest (entriesOf name entries))) entries

/-- Puts a file below some entries, and makes the directories on the way. -/
def makeFile (content : Option Tree) : List String → List Entry → List Entry
  | [], entries => entries
  | [name], entries => insert (file name content) entries
  | name :: rest, entries =>
    insert (directory name (makeFile content rest (entriesOf name entries))) entries

end Entry

/-- What a path leads to. -/
inductive Found where
  | missing
  | notDirectory
  | file (content : Option Tree)
  | directory (entries : List Entry)

/-- The working directory: its name and its entries. -/
structure Disk where
  name : String
  entries : List Entry

namespace Disk

def empty (name : String) : Disk := ⟨name, []⟩

/-- The way to the working directory from the root. -/
def here (d : Disk) : List String := [d.name]

/-- Adds a file, or a directory if the path ends in a slash. -/
def add (d : Disk) (path : String) (content : Option Tree) : Disk :=
  let names := Path.components true path
  if path.endsWith "/" then { d with entries := Entry.makeDirectory names d.entries }
  else { d with entries := Entry.makeFile content names d.entries }

def ofFiles (name : String) (files : List (String × Option Tree)) : Disk :=
  files.foldl (fun d f => d.add f.1 f.2) (empty name)

/-- Follows the components of a path from a directory, given with the directories around it. -/
def follow : List (List Entry) → List String → Found
  | [], _ => .missing
  | entries :: _, [] => .directory entries
  | entries :: around, name :: rest =>
    if name = "" ∨ name = "." then follow (entries :: around) rest
    else if name = ".." then
      follow (if around.isEmpty then [entries] else around) rest
    else match Entry.find? name entries with
      | none => .missing
      | some (.directory _ es) => follow (es :: entries :: around) rest
      | some (.file _ content) => if rest.isEmpty then .file content else .notDirectory

/-- The entries of the root of the file system. -/
def root (d : Disk) : List Entry := [.directory d.name d.entries]

/-- What a path leads to; the empty path leads nowhere. -/
def find (d : Disk) (path : String) : Found :=
  if path.isEmpty then .missing
  else if Path.isAbsolute path then follow [d.root] (Path.split path)
  else follow [d.entries, d.root] (Path.split path)

def isFile (d : Disk) (path : String) : Bool :=
  match d.find path with
  | .file _ => true
  | _ => false

/-- The tree of a file. -/
def read (d : Disk) (path : String) : Except Fault Tree :=
  match d.find path with
  | .missing => .error (.missingFile path)
  | .notDirectory => .error (.notDirectory path)
  | .directory _ => .error (.isDirectory path)
  | .file none => .error .unparseable
  | .file (some t) => .ok t

end Disk

/-! ### Walking through directories -/

def isProgramName (name : String) : Bool := name.endsWith ".py"

/-- The program files directly in a directory. -/
def filesHere (path : String) (entries : List Entry) : List String :=
  entries.filterMap fun
    | .file name _ => if isProgramName name then some (Path.join path name) else none
    | .directory _ _ => none

/-- The program files in the directories among some entries. Taking a hidden directory away moves
the next one into its place, which is then not looked at any more: `passed` tells that this has
just happened. -/
def filesBelow (path : String) (passed : Bool) : List Entry → List String
  | [] => []
  | .file _ _ :: rest => filesBelow path passed rest
  | .directory name es :: rest =>
    if !passed && name.startsWith "." then filesBelow path true rest
    else
      filesHere (Path.join path name) es ++ filesBelow (Path.join path name) false es
        ++ filesBelow path false rest

/-- The program files in a directory and below it. -/
def Disk.programFiles (d : Disk) (path : String) : List String :=
  match d.find path with
  | .directory entries => filesHere path entries ++ filesBelow path false entries
  | _ => []

end ScopeLint

import ScopeLint.Scope.Table
import ScopeLint.Tree.Literal
import ScopeLint.Tree.Role

/-! Scopes. A scope belongs to a module, a class, a function or a lambda and owns the occurrences
of names in its table `names`. Occurrences whose owner is not settled yet are pending. The scopes
of a program form a forest in which every scope comes after its parent. -/

namespace ScopeLint

/-- The occurrences of a name that a star import may have bound. While they are still pending in
a scope, the record follows what is added there. -/
structure StarRecord where
  sites : List Site
  follows : Option Nat

/-- Occurrences without an owner, and what was declared global: names, and values that are none. -/
structure Pending where
  unscoped : Table Site
  globals : List String
  strays : List Atom

structure Scope where
  parent : Option Nat
  owner : Tree
  names : Table Site
  /-- What was declared global without being a name. It has no occurrences; the number tells behind
  how many entries of `names` it stands. -/
  strays : List (Nat × Atom)
  /-- Whether the tables have been closed against changes. -/
  closed : Bool
  /-- Absent once the scope is frozen. -/
  pending : Option Pending
  imports : List Site
  hasStars : Bool
  fromStars : List (String × StarRecord)
  future : List Atom
  /-- The exports, once they have been asked for. -/
  exported : Option (Option Literal)

namespace Scope

def fresh (parent : Option Nat) (owner : Tree) : Scope :=
  ⟨parent, owner, [], [], false, some ⟨[], [], []⟩, [], false, [], [], none⟩

def isModule (s : Scope) : Bool := s.owner.isKind .module

def isClass (s : Scope) : Bool := s.owner.isKind .classDef

/-- The strays that stand behind so many entries. -/
def straysAt (s : Scope) (i : Nat) : List (Atom × List Site) :=
  s.strays.filterMap fun (k, a) => if k = i then some (a, []) else none

/-- The entries of the table, with the strays in their places. -/
def entries (s : Scope) : List (Atom × List Site) :=
  (s.names.zipIdx.flatMap fun ((name, sites), i) => s.straysAt i ++ [(.str name, sites)])
    ++ s.straysAt s.names.length

/-- The names that every module knows. -/
def builtins : List String :=
  ["ArithmeticError", "AssertionError", "AttributeError", "BaseException", "BaseExceptionGroup",
   "BlockingIOError", "BrokenPipeError", "BufferError", "BytesWarning", "ChildProcessError",
   "ConnectionAbortedError", "ConnectionError", "ConnectionRefusedError", "ConnectionResetError",
   "DeprecationWarning", "EOFError", "Ellipsis", "EncodingWarning", "EnvironmentError", "Exception",
   "ExceptionGroup", "False", "FileExistsError", "FileNotFoundError", "FloatingPointError",
   "FutureWarning", "GeneratorExit", "IOError", "ImportError", "ImportWarning", "IndentationError",
   "IndexError", "InterruptedError", "IsADirectoryError", "KeyError", "KeyboardInterrupt",
   "LookupError", "MemoryError", "ModuleNotFoundError", "NameError", "None", "NotADirectoryError",
   "NotImplemented", "NotImplementedError", "OSError", "OverflowError", "PendingDeprecationWarning",
   "PermissionError", "ProcessLookupError", "RecursionError", "ReferenceError", "ResourceWarning",
   "RuntimeError", "RuntimeWarning", "StopAsyncIteration", "StopIteration", "SyntaxError",
   "SyntaxWarning", "SystemError", "SystemExit", "TabError", "TimeoutError", "True", "TypeError",
   "UnboundLocalError", "UnicodeDecodeError", "UnicodeEncodeError", "UnicodeError",
   "UnicodeTranslateError", "UnicodeWarning", "UserWarning", "ValueError", "Warning",
   "ZeroDivisionError", "__build_class__", "__debug__", "__doc__", "__file__", "__import__",
   "__loader__", "__name__", "__package__", "__spec__", "abs", "aiter", "all", "anext", "any",
   "ascii", "bin", "bool", "breakpoint", "bytearray", "bytes", "callable", "chr", "classmethod",
   "compile", "complex", "copyright", "credits", "delattr", "dict", "dir", "divmod", "enumerate",
   "eval", "exec", "exit", "filter", "float", "format", "frozenset", "getattr", "globals",
   "hasattr", "hash", "help", "hex", "id", "input", "int", "isinstance", "issubclass", "iter",
   "len", "license", "list", "locals", "map", "max", "memoryview", "min", "next", "object", "oct",
   "open", "ord", "pow", "print", "property", "quit", "range", "repr", "reversed", "round", "set",
   "setattr", "slice", "sorted", "staticmethod", "str", "sum", "super", "tuple", "type", "vars",
   "zip"]

/-- Whether a name is known in a scope without being bound there. -/
def isGlobal (s : Scope) (name : String) : Bool := s.isModule && builtins.contains name

/-- Whether a value is a name that is known in a scope. Lists cannot be looked up in a module. -/
def isGlobalValue (s : Scope) : Tree → Except Fault Bool
  | .atom (.str name) => .ok (s.isGlobal name)
  | .list _ => if s.isModule then .error (.notHashable "list") else .ok false
  | _ => .ok false

def starSites (s : Scope) (name : String) : List Site :=
  match s.fromStars.lookup name with
  | some r => r.sites
  | none => []

end Scope

/-- Scopes by number; a parent has a smaller number than its children. -/
structure Forest where
  scopes : List Scope

namespace Forest

def empty : Forest := ⟨[]⟩

def size (f : Forest) : Nat := f.scopes.length

def scope? (f : Forest) (i : Nat) : Option Scope := f.scopes[i]?

/-- The children of a scope in the order in which they were opened. -/
def children (f : Forest) (i : Nat) : List Nat :=
  f.scopes.zipIdx.filterMap fun (s, j) => if s.parent = some i then some j else none

/-- A scope and all scopes below it, parents first, with their depths. The number of scopes
bounds the depth. -/
def walkFrom (f : Forest) : Nat → Nat → Nat → List (Nat × Nat)
  | 0, _, _ => []
  | fuel + 1, depth, i => (depth, i) :: (f.children i).flatMap (walkFrom f fuel (depth + 1))

def walk (f : Forest) (i : Nat) : List Nat := (f.walkFrom f.size 0 i).map Prod.snd

/-- A scope and the scopes around it, the nearest first. -/
def enclosingFrom (f : Forest) : Nat → Nat → List Nat
  | 0, _ => []
  | fuel + 1, i => i :: match (f.scope? i).bind Scope.parent with
    | some p => enclosingFrom f fuel p
    | none => []

def enclosing (f : Forest) (i : Nat) : List Nat := f.enclosingFrom f.size i

/-- The nearest module around a scope, the scope included. -/
def moduleOf? (f : Forest) (i : Nat) : Option Nat :=
  (f.enclosing i).find? fun j => (f.scope? j).any Scope.isModule

def moduleOf (f : Forest) (i : Nat) : Except Fault Nat :=
  match f.moduleOf? i with
  | some m => .ok m
  | none => .error (.missingAttribute "NoneType" "is_module")

/-- Whether a scope or one around it has a star import. -/
def seesStars (f : Forest) (i : Nat) : Bool :=
  (f.enclosing i).any fun j => (f.scope? j).any Scope.hasStars

/-- Every entry of every scope below one, parents first. -/
def entries (f : Forest) (i : Nat) : List (Nat × Atom × List Site) :=
  (f.walk i).flatMap fun j =>
    match f.scope? j with
    | some s => s.entries.map fun (name, sites) => (j, name, sites)
    | none => []

/-- The fault of looking for an underscore in a value that is no text. -/
def searchFault : Atom → Fault
  | .bytes _ => .searchedBytes
  | a => .notSearchable a.className

/-- The names of a module that do not start with an underscore. -/
def implicitExports (f : Forest) (i : Nat) : Except Fault (List String) :=
  match f.scope? i with
  | some s =>
    match s.isModule, s.strays with
    | false, _ => .error .violated
    | true, (_, a) :: _ => .error (searchFault a)
    | true, [] => .ok (s.names.keys.filter fun name => !name.startsWith "_")
  | none => .error .violated

end Forest

end ScopeLint

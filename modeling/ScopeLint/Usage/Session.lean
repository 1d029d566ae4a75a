import ScopeLint.Project.FileSet
import ScopeLint.Scope.Exports

/-! The state of an analysis: the lines it has printed, the scopes it has warned about, and the
names it has found used. -/

namespace ScopeLint

/-- Where a value stands: the package of a file, and a place in the file. -/
abbrev Origin := String × List Step

/-- A name that is used, with its origin if it has one. -/
structure Mark where
  name : Atom
  origin : Option Origin
deriving DecidableEq

namespace Mark

def ofText (s : String) : Mark := ⟨.str s, none⟩

/-- Marks are the same when their values are equal. A value that is not equal to itself is still the
same as itself at the same place. -/
def same (a b : Mark) : Bool :=
  a.name.valueEq b.name || (a.origin.isSome && a == b)

/-- Marks each once. -/
def distinct (marks : List Mark) : List Mark :=
  marks.foldl (fun known m => if known.any m.same then known else known ++ [m]) []

end Mark

/-- The names of each package that are used. A package has an entry once a name of it is used. -/
structure Used where
  entries : List (String × List Mark)

namespace Used

def none : Used := ⟨[]⟩

def of (u : Used) (package : String) : List Mark := (u.entries.lookup package).getD []

def contains (u : Used) (package : String) (name : Mark) : Bool := (u.of package).any name.same

/-- Adds to the names of a package what is not among them. -/
def add (u : Used) (package : String) (name : Mark) : Used :=
  if u.contains package name then u
  else if u.entries.any fun e => e.1 == package then
    ⟨u.entries.map fun e => if e.1 = package then (e.1, e.2 ++ [name]) else e⟩
  else ⟨u.entries ++ [(package, [name])]⟩

end Used

structure Session where
  lines : List String
  warned : List (String × Nat)
  used : Used

def Session.start : Session := ⟨[], [], Used.none⟩

/-- What was printed before a fault stays printed. -/
abbrev Run := ExceptT Fault (StateM Session)

namespace Run

def lift {α : Type} (e : Except Fault α) : Run α :=
  match e with
  | .ok a => pure a
  | .error fault => throw fault

/-- Prints a text and ends the line. -/
def print (text : String) : Run Unit :=
  modify fun s => { s with lines := s.lines ++ [text] }

def mark (package : String) (name : Mark) : Run Unit :=
  modify fun s => { s with used := s.used.add package name }

def markText (package name : String) : Run Unit := mark package (.ofText name)

def markTexts (package : String) (names : List String) : Run Unit := names.forM (markText package)

/-- Marks what stands for a name at a place; lists cannot be names. -/
def markTree (package : String) (origin : Option Origin) : Tree → Run Unit
  | .atom a => mark package ⟨a, origin⟩
  | .list _ => throw (.notHashable "list")
  | .node _ _ _ => return ()

/-- The exports of a scope of a package. A warning is printed the first time only. -/
def exports (package : String) (i : Nat) (s : Scope) : Run (Option Literal) := do
  let e ← lift s.exports
  if e.warns && !(← get).warned.contains (package, i) then
    print Exports.warning
    modify fun s => { s with warned := s.warned ++ [(package, i)] }
  return e.value

/-- The first occurrence of a name. -/
def firstOf : List Site → Run Site
  | [] => throw .noEntry
  | site :: _ => return site

end Run

end ScopeLint

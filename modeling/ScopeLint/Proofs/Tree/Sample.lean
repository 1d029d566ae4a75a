import ScopeLint.Project.FileSet

/-! Small programs by their parts. A statement stands at a line; the names in it stand in the order of
their columns. -/

namespace ScopeLint.Sample

def place (line column : Int) : Span := ⟨some (.int line), some (.int column), none, none⟩

def name (ctx : Kind) (n : String) (line column : Int) : Tree :=
  .node .name (place line column) [.atom (.str n), .node ctx .absent []]

def constant (a : Atom) (line column : Int) : Tree :=
  .node .constant (place line column) [.atom a, .null]

/-- A list or a tuple, by its kind. -/
def sequence (k : Kind) (elements : List Tree) (line column : Int) : Tree :=
  .node k (place line column) [.list elements, .node .load .absent []]

def call (function : String) (args : List Tree) (line column : Int) : Tree :=
  .node .call (place line column) [name .load function line column, .list args, .list []]

def assign (n : String) (value : Tree) (line column : Int) : Tree :=
  .node .assign (place line column) [.list [name .store n line column], value, .null]

/-- A module says what it exports. -/
def exports (n : String) (line : Int) : Tree :=
  assign "__all__" (.node .list (place line 10)
    [.list [constant (.str n) line 11], .node .load .absent []]) line 0

/-- A module adds to what it exports. -/
def addition (n : String) (line : Int) : Tree :=
  .node .augAssign (place line 0) [name .store "__all__" line 0, .node .addOp .absent [],
    .node .list (place line 11) [.list [constant (.str n) line 12], .node .load .absent []]]

def parameter (n : String) (line column : Int) : Tree :=
  .node .parameter (place line column) [.atom (.str n), .null, .null]

def parameters (args defaults : List Tree) : Tree :=
  .node .parameters .absent
    [.list [], .list args, .null, .list [], .list [], .null, .list defaults]

def noParameters : Tree := parameters [] []

def function (n : String) (body : List Tree) (line column : Int) : Tree :=
  .node .functionDef (place line column)
    [.atom (.str n), noParameters, .list body, .list [], .null, .null]

def classDef (n : String) (body : List Tree) (line column : Int) : Tree :=
  .node .classDef (place line column) [.atom (.str n), .list [], .list [], .list body, .list []]

def lambda (value : Tree) (line column : Int) : Tree :=
  .node .lambda (place line column) [noParameters, value]

/-- A statement that only evaluates an expression. -/
def evaluated (value : Tree) (line column : Int) : Tree := .node .exprStmt (place line column) [value]

def returned (value : Tree) (line column : Int) : Tree := .node .returnStmt (place line column) [value]

/-- A statement that declares a name global. -/
def global (n : String) (line column : Int) : Tree :=
  .node .globalStmt (place line column) [.list [.atom (.str n)]]

def importAlias (n : String) (line column : Int) : Tree :=
  .node .importAlias (place line column) [.atom (.str n), .null]

def importStmt (n : String) (line column : Int) : Tree :=
  .node .importStmt (place line column) [.list [importAlias n line (column + 7)]]

def importFrom (module n : String) (line column : Int) : Tree :=
  .node .importFrom (place line column)
    [.atom (.str module), .list [importAlias n line (column + 14)], .atom (.int 0)]

def module (body : List Tree) : Tree := .node .module .absent [.list body, .list []]

/-- A file of a package with some statements. -/
def fileOf (package : String) (body : List Tree) : String × SourceFile :=
  (package, ⟨".", package ++ ".py", false, ⟨package, package⟩, .ok (module body), (module body).scopes⟩)

/-- Some files, by their packages. -/
def project (files : List (String × List Tree)) : FileSet := ⟨files.map fun e => fileOf e.1 e.2⟩

end ScopeLint.Sample

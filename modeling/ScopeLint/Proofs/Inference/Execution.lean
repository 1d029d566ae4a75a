import Mathlib.Logic.Function.Basic
import ScopeLint.Tree.Site

/-! Straight-line code and what it computes. The statements assign terms to names or only evaluate
them, and a term is a name, a whole number, a text or a sum. A run tells the value that each node takes,
and how the names that the value went through had been assigned. -/

namespace ScopeLint

namespace Tree

/-- A name that can be assigned to. -/
def isVariable : Tree → Bool
  | .node .name _ (.atom (.str _) :: _) => true
  | _ => false

/-- Names, whole numbers, texts and sums of these. -/
def isTerm : Tree → Bool
  | .node .name _ (.atom (.str _) :: _) => true
  | .node .constant _ (.atom (.int _) :: _) => true
  | .node .constant _ (.atom (.str _) :: _) => true
  | .node .binOp _ [left, .node .addOp _ _, right] => left.isTerm && right.isTerm
  | _ => false

/-- A term that is assigned to one or more names, or that stands alone. -/
def isStraight : Tree → Bool
  | .node .assign _ [.list targets, value, .atom _] =>
    !targets.isEmpty && targets.all isVariable && value.isTerm
  | .node .exprStmt _ [value] => value.isTerm
  | _ => false

/-- A module of such statements. -/
def isStraightLine : Tree → Bool
  | .node .module _ [.list body, .list []] => body.all isStraight
  | _ => false

end Tree

/-- How a value has come to a node: through names that were assigned alone; through one that was assigned
together with others; or, outdated, through one that was so assigned when it held a value which was not
shared. -/
inductive Lineage where
  | alone
  | shared
  | outdated
deriving DecidableEq

namespace Lineage

/-- A sum is shared if a summand is, and else outdated if a summand is. -/
def plus : Lineage → Lineage → Lineage
  | .alone, .alone => .alone
  | .shared, _ | _, .shared => .shared
  | _, _ => .outdated

end Lineage

/-- A value, and how it has come. -/
structure Held where
  value : Atom
  lineage : Lineage
deriving DecidableEq

namespace Held

/-- Numbers are added and texts are joined. There are no other sums. -/
def plus : Held → Held → Option Held
  | ⟨.int m, a⟩, ⟨.int n, b⟩ => some ⟨.int (m + n), a.plus b⟩
  | ⟨.str m, a⟩, ⟨.str n, b⟩ => some ⟨.str (m ++ n), a.plus b⟩
  | _, _ => none

/-- The value as some targets take it. -/
def givenTo (h : Held) : List Tree → Held
  | [_] => h
  | _ => ⟨h.value, .shared⟩

/-- What a name holds after an assignment together with others, by what it held before. -/
def sharedAfter (a : Atom) : Option Held → Held
  | none | some ⟨_, .shared⟩ => ⟨a, .shared⟩
  | some _ => ⟨a, .outdated⟩

end Held

/-- The values of the names that have one. -/
abbrev Environment := String → Option Held

namespace Environment

/-- A name takes a value, which may depend on the one that it held. -/
def bind (env : Environment) (target : Tree) (h : Option Held → Held) : Environment :=
  match target with
  | .node .name _ (.atom (.str n) :: _) => Function.update env n (some (h (env n)))
  | _ => env

/-- All targets of an assignment take its value. -/
def assign (env : Environment) (h : Held) : List Tree → Environment
  | [target] => env.bind target fun _ => h
  | targets => targets.foldl (fun env target => env.bind target (Held.sharedAfter h.value)) env

end Environment

/-- The values that nodes take, by the ways to them. -/
abbrev Trace := List (List Step × Held)

namespace Tree

/-- The value of a term, and those of the nodes in it. Names without a value have none. -/
def evaluate (env : Environment) (path : List Step) : Tree → Option (Held × Trace)
  | .node .name _ (.atom (.str n) :: _) => do
    let h ← env n
    return (h, [(path, h)])
  | .node .constant _ (.atom a :: _) => some (⟨a, .alone⟩, [(path, ⟨a, .alone⟩)])
  | .node .binOp _ [left, _, right] => do
    let (a, ta) ← left.evaluate env (path ++ [Step.field "left"])
    let (b, tb) ← right.evaluate env (path ++ [Step.field "right"])
    let h ← a.plus b
    return (h, ta ++ tb ++ [(path, h)])
  | _ => none

/-- Runs a statement. The value of an assignment is evaluated before its targets take it. -/
def execute (env : Environment) (path : List Step) : Tree → Option (Environment × Trace)
  | .node .assign _ [.list targets, value, _] => do
    let (h, trace) ← value.evaluate env (path ++ [Step.field "value"])
    return (env.assign h targets,
      trace ++ targets.mapIdx fun i _ => (path ++ [Step.field "targets", .item i], h.givenTo targets))
  | .node .exprStmt _ [value] => do
    let (_, trace) ← value.evaluate env (path ++ [Step.field "value"])
    return (env, trace)
  | _ => none

/-- Runs statements one after the other. -/
def executeAll (env : Environment) (path : List Step) (i : Nat) : List Tree → Option Trace
  | [] => some []
  | t :: ts => do
    let (env, trace) ← t.execute env (path ++ [Step.item i])
    let rest ← executeAll env path (i + 1) ts
    return trace ++ rest

/-- Runs a module. At first no name has a value. -/
def execution : Tree → Option Trace
  | .node .module _ (.list body :: _) => executeAll (fun _ => none) [.field "body"] 0 body
  | _ => none

end Tree

end ScopeLint

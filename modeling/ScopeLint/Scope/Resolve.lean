import ScopeLint.Scope.Basic

/-! The operations on scopes. A change acts on a forest and may fail; what it did before it failed
stays done.

An occurrence is added to the table of its scope when the scope is a module, when the name is
already there, or when it is a parameter, and otherwise it is pending. Resolving a scope settles
what is pending in it and below it: names declared global go to the module, names that the scope
binds stay in it, and what the scope knows it takes from the scopes below. A class keeps an
occurrence only from the first one that is not a read, and gives nothing to the scopes below. -/

namespace ScopeLint

abbrev Change := ExceptT Fault (StateM Forest)

namespace Forest

/-- The forest with one scope changed. -/
def update (f : Forest) (i : Nat) (g : Scope → Scope) : Forest := ⟨f.scopes.modify i g⟩

/-- The forest with a further scope. -/
def push (f : Forest) (parent : Option Nat) (owner : Tree) : Forest :=
  ⟨f.scopes ++ [Scope.fresh parent owner]⟩

/-- Lets the star records that follow a pending entry go on by themselves. -/
def release (f : Forest) (i : Nat) (name : String) : Forest :=
  ⟨f.scopes.map fun s => { s with
    fromStars := s.fromStars.map fun (key, r) =>
      if key = name ∧ r.follows = some i then (key, { r with follows := none }) else (key, r) }⟩

/-- Adds sites to the star records that follow a pending entry. -/
def forward (f : Forest) (i : Nat) (name : String) (sites : List Site) : Forest :=
  ⟨f.scopes.map fun s => { s with
    fromStars := s.fromStars.map fun (key, r) =>
      if key = name ∧ r.follows = some i then (key, { r with sites := r.sites ++ sites })
      else (key, r) }⟩

end Forest

namespace Scope

/-- Puts a star record under a name. -/
def recordStar (s : Scope) (name : String) (r : StarRecord) : Scope :=
  if s.fromStars.any fun e => e.1 == name then
    { s with fromStars := s.fromStars.map fun e => if e.1 = name then (name, r) else e }
  else { s with fromStars := s.fromStars ++ [(name, r)] }

/-- The scope with its tables closed. -/
def close (s : Scope) : Scope :=
  { s with
    closed := true
    fromStars := s.fromStars.map fun (key, r) => (key, { r with follows := none }) }

end Scope

namespace Change

def lift {α : Type} (e : Except Fault α) : Change α :=
  match e with
  | .ok a => pure a
  | .error fault => throw fault

def scope (i : Nat) : Change Scope := do
  match (← get).scope? i with
  | some s => return s
  | none => throw .noElement

def update (i : Nat) (g : Scope → Scope) : Change Unit := modify fun f => f.update i g

/-- What is pending in a scope, which must not be frozen. The fault names what was asked for. -/
def pending (i : Nat) (asked : String) : Change Pending := do
  match (← scope i).pending with
  | some p => return p
  | none => throw (.missingAttribute "Scope" asked)

def setUnscoped (i : Nat) (unscoped : Table Site) : Change Unit :=
  update i fun s => { s with pending := s.pending.map fun p => { p with unscoped := unscoped } }

/-- Gives sites to a scope. A closed table takes none; the fault depends on how they are given. -/
def give (i : Nat) (name : String) (sites : List Site) (how : String) : Change Unit := do
  let s ← scope i
  if s.closed then
    if s.names.contains name then throw (.missingAttribute "tuple" how)
    else throw (.missingName name)
  else update i fun s => { s with names := s.names.extend name sites }

/-- Opens a scope; the answer is its number. -/
def create (parent : Option Nat) (owner : Tree) : Change Nat := do
  let f ← get
  set (f.push parent owner)
  return f.size

/-- Adds an occurrence of a name to a scope. -/
def add (i : Nat) (name : String) (site : Site) : Change Unit := do
  let s ← scope i
  if s.names.contains name || s.isModule || site.tree.isParam then give i name [site] "append"
  else
    let p ← pending i "unscoped_names"
    setUnscoped i (p.unscoped.extend name [site])
    modify fun f => f.forward i name [site]

/-- What is pending with a further name, or another value, that is declared global. -/
def declare (p : Pending) : Atom → Pending
  | .str name =>
    if p.globals.contains name then p else { p with globals := p.globals ++ [name] }
  | a => if p.strays.any a.valueEq then p else { p with strays := p.strays ++ [a] }

/-- Declares names global in a scope. Lists cannot be declared. -/
def declareGlobal (i : Nat) (names : List Tree) : Change Unit := do
  let _ ← pending i "global_names"
  names.forM fun
    | .atom a => update i fun s => { s with pending := s.pending.map (declare · a) }
    | .list _ => throw (.notHashable "list")
    | .node _ _ _ => return ()

/-- Gives a stray to a module, behind the entries that are there. -/
def giveStray (i : Nat) (a : Atom) : Change Unit := do
  let s ← scope i
  let known := s.strays.any fun e => e.2.valueEq a
  if s.closed then
    if known then throw (.missingAttribute "tuple" "extend") else throw (.missingKey a.spelling)
  else if !known then update i fun s => { s with strays := s.strays ++ [(s.names.length, a)] }

/-- Takes the pending occurrences of a name out of a scope. -/
def take (i : Nat) (name : String) : Change (List Site) := do
  let p ← pending i "unscoped_names"
  setUnscoped i (p.unscoped.erase name)
  modify fun f => f.release i name
  return (p.unscoped.get? name).getD []

/-- Whether one of the sites binds the name. The sites after the first that does are not looked
at. -/
def anyWrite : List Site → Except Fault Bool
  | [] => .ok false
  | site :: rest => do
    if ← site.tree.isWrite then return true else anyWrite rest

/-- Settles a name that is pending in a scope. -/
def settle (i : Nat) (name : String) (sites : List Site) : Change Unit := do
  let s ← scope i
  if s.isClass then
    let reads := sites.takeWhile fun site => site.tree.isRead
    let rest := sites.dropWhile fun site => site.tree.isRead
    unless rest.isEmpty do
      give i name rest "extend"
      if reads.isEmpty then discard (take i name)
      else
        let p ← pending i "unscoped_names"
        setUnscoped i (p.unscoped.replace name reads)
        modify fun f => f.release i name
  else
    let owns ← if s.isModule then pure true else lift (anyWrite sites)
    if owns then
      give i name sites "extend"
      discard (take i name)

/-- Takes a pending name of a scope below into a scope that knows it. A module leaves what nobody
knows in the scope where it stands. -/
def claim (i below : Nat) (name : String) (sites : List Site) : Change Unit := do
  let s ← scope i
  if s.hasStars then update i fun s => s.recordStar name ⟨sites, some below⟩
  if s.names.contains name || s.isGlobal name then
    give i name sites "extend"
    discard (take below name)
  else if s.isModule then
    give below name sites "extend"
    discard (take below name)

/-- Resolves a scope. -/
def resolve (i : Nat) : Change Unit := do
  let p ← pending i "global_names"
  p.globals.forM fun name => do
    let sites ← take i name
    let m ← lift ((← get).moduleOf i)
    give m name sites "extend"
  p.strays.forM fun a => do
    giveStray (← lift ((← get).moduleOf i)) a
  let p ← pending i "unscoped_names"
  p.unscoped.forM fun (name, sites) => settle i name sites
  unless (← scope i).isClass do
    ((← get).walk i).forM fun j => do
      let p ← pending j "unscoped_names"
      p.unscoped.forM fun (name, sites) => claim i j name sites

/-- Freezes a module and all scopes below it, in which nothing may be pending any more. -/
def freeze (i : Nat) : Change Unit := do
  unless (← scope i).isModule do throw .violated
  ((← get).walk i).forM fun j => do
    update j Scope.close
    let p ← pending j "unscoped_names"
    unless p.unscoped.isEmpty do throw .violated
    update j fun s => { s with pending := none }

end Change

end ScopeLint

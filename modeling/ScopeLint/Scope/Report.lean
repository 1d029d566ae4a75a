import ScopeLint.Scope.Basic

/-! The report on a scope and the scopes below it: a block of lines for each, with the kind, the
name and the line of its owner, then its entries by name. -/

namespace ScopeLint

namespace Scope

/-- The kind, the name and the line of the owner of a scope. -/
def title (s : Scope) : Except Fault String := do
  let name ← match s.owner.get? "name" with
    | none => pure ""
    | some (.atom (.str n)) => pure (" " ++ n)
    | some t => .error (.notText t.className)
  let line ← match s.owner.get? "lineno" with
    | none => pure ""
    | some t => do pure (" at line " ++ (← t.wholeNumber))
  return "Scope " ++ s.owner.className ++ name ++ line

/-- The line for an entry of a table. -/
def entryLine (indent label : String) (entry : String × List Site) : Except Fault String := do
  return indent ++ "  " ++ label ++ entry.1 ++ " = "
    ++ (← Tree.rolesText (entry.2.map Site.tree))

/-- The lines for the entries of a table, by name. -/
def entryLines (indent label : String) (t : Table Site) : Except Fault (List String) :=
  t.sorted.mapM (entryLine indent label)

/-- The fault of ordering names of which some are no texts: the first that does not compare with
the one before it. -/
def orderFault? : List Atom → Option Fault
  | a :: b :: rest =>
    if a.isOrderedWith b then orderFault? (b :: rest)
    else some (.notOrdered b.className a.className)
  | _ => none

/-- The lines for the entries of a scope. -/
def nameLines (s : Scope) (indent : String) : Except Fault (List String) :=
  match s.strays, orderFault? (s.entries.map Prod.fst) with
  | [], _ => entryLines indent "" s.names
  | _, some fault => .error fault
  | _, none => s.entries.mapM fun (a, sites) => do entryLine indent "" (← a.printed, sites)

/-- The block of lines for one scope. -/
def block (s : Scope) (indent : String) : Except Fault String := do
  let title ← s.title
  let names ← s.nameLines indent
  let unscoped ← match s.pending with
    | some p => entryLines indent "unscoped " p.unscoped
    | none => pure []
  return "\n".intercalate ((indent ++ title) :: names ++ unscoped)

end Scope

/-- The blocks of a scope and of all scopes below it, with an empty line between them. -/
def Forest.report (f : Forest) (i : Nat) (indent : String) : Except Fault String := do
  let blocks ← (f.walkFrom f.size 0 i).mapM fun (depth, j) =>
    match f.scope? j with
    | some s => s.block (indent ++ String.join (List.replicate depth "  "))
    | none => .error .violated
  return "\n\n".intercalate blocks

end ScopeLint

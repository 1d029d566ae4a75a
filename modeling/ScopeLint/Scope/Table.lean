/-! Tables from names to lists in the order in which the names came first. -/

namespace ScopeLint

/-- Every name has one entry; its items stand in the order in which they were added. -/
abbrev Table (α : Type) := List (String × List α)

namespace Table

variable {α : Type}

def keys (t : Table α) : List String := t.map Prod.fst

def contains (t : Table α) (name : String) : Bool := t.any fun e => e.1 == name

def get? (t : Table α) (name : String) : Option (List α) := t.lookup name

/-- Adds items at the end of an entry, which is made at the end of the table if it is not there. -/
def extend : Table α → String → List α → Table α
  | [], name, items => [(name, items)]
  | (key, old) :: rest, name, items =>
    if key = name then (key, old ++ items) :: rest else (key, old) :: extend rest name items

/-- Puts other items into an entry that stays where it is. -/
def replace (t : Table α) (name : String) (items : List α) : Table α :=
  t.map fun (key, old) => if key = name then (key, items) else (key, old)

def erase (t : Table α) (name : String) : Table α := t.filter fun e => e.1 != name

/-- The entries by name. -/
def sorted (t : Table α) : Table α := t.mergeSort fun a b => a.1 ≤ b.1

end Table

end ScopeLint

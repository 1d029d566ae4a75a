import ScopeLint.Project.Disk
import ScopeLint.Snapshot.Datum

/-! Syntax trees and files as plain data. A node is a record with its class under `t`, its place
under `p` and its fields under `f`; numbers that plain data does not have, bytes and the ellipsis
are records of one entry. A snapshot of a working directory is a list of pairs of a path and a
tree. -/

namespace ScopeLint

namespace Tree

/-- The bytes that pairs of hexadecimal digits stand for; blanks may stand between the pairs. -/
def bytesOfHex? : List Char → Option (List UInt8)
  | [] => some []
  | [c] => if Numeral.isBlank c then some [] else none
  | a :: b :: rest =>
    if Numeral.isBlank a then bytesOfHex? (b :: rest)
    else do
      let n ← Datum.hexNumber? [a, b]
      return UInt8.ofNat n :: (← bytesOfHex? rest)

def floatOf? (t : Tree) : Option Binary64 := t.str?.bind Binary64.ofText?

/-- The value of a leaf; other trees count as null. -/
def leaf : Tree → Atom
  | .atom a => a
  | _ => .null

/-- A node from its class, its place and its fields. -/
def nodeOfParts? (cls : Tree) (place fields : Option Tree) : Option Tree := do
  let kind ← Kind.ofClassName? (← cls.str?)
  let fields ← match fields with
    | none => some []
    | some (.list fs) => some fs
    | some _ => none
  let parts := match place with
    | some (.list ps) => ps.map leaf
    | _ => []
  return .node kind ⟨parts[0]?, parts[1]?, parts[2]?, parts[3]?⟩ fields

/-- The tree that a record stands for, with its values as trees. -/
def ofParts? (parts : List (String × Tree)) : Option Tree :=
  match parts.lookup "t", parts with
  | some cls, parts => nodeOfParts? cls (parts.lookup "p") (parts.lookup "f")
  | none, [("int", v)] => do return .atom (.int (← Numeral.int? (← v.str?)))
  | none, [("float", v)] => do return .atom (.float (← v.floatOf?))
  | none, [("complex", .list [re, im])] => do
    return .atom (.complex (← re.floatOf?) (← im.floatOf?))
  | none, [("bytes", v)] => do return .atom (.bytes (← bytesOfHex? (← v.str?).toList))
  | none, [("ellipsis", _)] => some (.atom .ellipsis)
  | none, _ => none

mutual

/-- The tree that a datum stands for. -/
def ofDatum? : Datum → Option Tree
  | .null => some (.atom .null)
  | .bool b => some (.atom (.bool b))
  | .int n => some (.atom (.int n))
  | .text s => some (.atom (.str s))
  | .list items => (ofData? items).map .list
  | .record names values => do ofParts? (names.zip (← ofData? values))

def ofData? : List Datum → Option (List Tree)
  | [] => some []
  | d :: ds => do return (← ofDatum? d) :: (← ofData? ds)

end

end Tree

namespace Disk

/-- A path and the tree of its file; null stands for a text that is no program. -/
def fileOf? : Datum → Option (String × Option Tree)
  | .list [.text path, .null] => some (path, none)
  | .list [.text path, tree] => do return (path, some (← Tree.ofDatum? tree))
  | _ => none

/-- The working directory, of a given name, that a snapshot describes. -/
def ofDatum? (name : String) : Datum → Option Disk
  | .list files => do return ofFiles name (← files.mapM fileOf?)
  | _ => none

end Disk

end ScopeLint

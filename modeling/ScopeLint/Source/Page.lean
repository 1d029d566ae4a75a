import ScopeLint.Tree.Atom

/-! The page on which a program is written. It holds the items in the order in which they were
written, and knows where its current line begins. Line breaks are held back until something is
written after them, even if that is an empty text. -/

namespace ScopeLint.Source

/-- Something written: a text, or another value, of which the class and the spelling are kept, and
whether it is too long to be printed. -/
inductive Item where
  | text (s : String)
  | value (className spelling : String) (long : Bool)
deriving DecidableEq

def Item.isEmpty : Item → Bool
  | text s => s.isEmpty
  | value _ s _ => s.isEmpty

def Item.print : Item → Except Fault String
  | text s => .ok s
  | value _ s long => Atom.unlessLong long s

structure Page where
  items : List Item
  /-- The number of line breaks that are held back. -/
  breaks : Nat
  /-- The index of the item with which the current line begins. -/
  line : Nat
  /-- The number of characters of that item that belong to earlier lines. -/
  skip : Nat
deriving DecidableEq

/-- A page is of no use after a fault. -/
abbrev Write := StateT Page (Except Fault)

namespace Page

def blank : Page := ⟨[], 0, 0, 0⟩

/-- What is on a page. Other values than texts become texts only here. -/
def print (p : Page) : Except Fault String := do
  return String.join (← p.items.mapM Item.print)

/-- Holds back at least one line break. -/
def newline (p : Page) : Page := { p with breaks := max p.breaks 1 }

/-- Writes the line breaks that are held back. The new line begins with an empty text. -/
def flush (p : Page) : Page :=
  if p.breaks = 0 then p
  else
    let ended := p.items ++ [.text (String.ofList (List.replicate p.breaks '\n'))]
    ⟨ended ++ [.text ""], 0, ended.length, 0⟩

/-- Puts an item at the end, whatever is held back. -/
def append (p : Page) (item : Item) : Page := { p with items := p.items ++ [item] }

/-- Writes an item; an empty one only brings the line breaks. -/
def write (p : Page) (item : Item) : Page :=
  if item.isEmpty then p.flush else p.flush.append item

/-- Writes a text that may go over several lines. -/
def writeBlock (p : Page) (s : String) : Page :=
  let p := p.write (.text s)
  let last := s.toList.reverse.takeWhile (· != '\n')
  if last.length = s.length then p
  else { p with line := p.items.length - 1, skip := s.length - last.length }

/-- Empties the item at an index. -/
def clear (p : Page) (i : Nat) : Page := { p with items := p.items.set i (.text "") }

/-- The texts from some item on. Other values do not join with texts. -/
def joinFrom : Nat → List Item → Except Fault (List Char)
  | _, [] => .ok []
  | i, .text s :: rest => do return s.toList ++ (← joinFrom (i + 1) rest)
  | i, .value className _ _ :: _ => .error (.notJoinable i className)

/-- What stands in the current line. -/
def currentLine (p : Page) : Except Fault (List Char) := do
  return (← joinFrom 0 (p.items.drop p.line)).drop p.skip

end Page

namespace Write

def fail {α : Type} (fault : Fault) : Write α := fun _ => .error fault

def lift {α : Type} (e : Except Fault α) : Write α := fun p => e.map fun a => (a, p)

def text (s : String) : Write Unit := modify fun p => p.write (.text s)

/-- Writes something in parentheses, which are taken out again if its own level is high enough for
its place. -/
def delimited (own asked : Nat) (body : Write Unit) : Write Unit := do
  text "("
  let opening := (← get).items.length - 1
  body
  if asked ≤ own then modify fun p => p.clear opening
  else modify fun p => p.append (.text ")")

end Write

end ScopeLint.Source

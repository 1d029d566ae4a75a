import ScopeLint.Source.Constant
import ScopeLint.Source.Level
import ScopeLint.Source.Page

/-! Program text from trees of assignments and expressions. Every place of an expression asks for
a level of binding, and what binds less is put in parentheses. Nodes can carry notes, which are
written in green behind them. -/

namespace ScopeLint.Source

/-- What is written about a node behind it. -/
abbrev Notes := List Step → Option (Except Fault String)

structure Style where
  /-- Whether every statement is preceded by a comment with its line. -/
  lineComments : Bool
  notes : Notes

def green (s : String) : String := "\x1b[32m" ++ s ++ "\x1b[0m"

/-- Writes the note behind a node; numbers and texts have none. -/
def Style.note (style : Style) (path : List Step) (t : Tree) : Write Unit := do
  if t.numberConstant?.isSome || t.stringConstant?.isSome then return ()
  if let some note := style.notes path then
    let s ← Write.lift note
    Write.text (green (" (" ++ s ++ ")"))

/-- Begins a statement. -/
def Style.opening (style : Style) (t : Tree) : Write Unit := do
  modify Page.newline
  if style.lineComments then
    let line ← Write.lift (t.get "lineno")
    Write.text ("# line: " ++ (← Write.lift line.printed))
    modify Page.newline

/-! ### Loose values -/

mutual

/-- Only nodes, nothing at all, and lists of these have a place in an expression. -/
def checkOperand : Tree → Except Fault Unit
  | .atom .null => .ok ()
  | .atom a => .error (.notWritable a.text)
  | .list items => checkOperands items
  | .node _ _ _ => .ok ()

def checkOperands : List Tree → Except Fault Unit
  | [] => .ok ()
  | t :: ts => do
    checkOperand t
    checkOperands ts

end

/-- What is written for a value that is no node. -/
def looseItem : Tree → Item
  | .atom (.str s) => .text s
  | t => if t.truth then .value t.className t.print t.isLong else .text ""

def writeLoose (t : Tree) : Write Unit := modify fun p => p.write (looseItem t)

/-! ### Constants -/

/-- The mark before a text that tells of which kind it is. -/
def withMark (kind : Tree) (s : String) : Except Fault String :=
  match kind with
  | .atom (.str mark) => .ok (mark ++ s)
  | .atom (.bytes (_ :: _)) => .error (.notBytes "str")
  | .list (_ :: _) => .error (.notListed "str")
  | t => if t.truth then .error (.notCombinable "+" t.className "str") else .ok s

/-- Writes a text in the way that suits its line. -/
def writeString (asked : Level) (kind : Tree) (s : String) : Write Unit := do
  modify Page.flush
  let line ← Write.lift (← get).currentLine
  let depth : Depth := if asked = Level.statement then .shallow else .deep
  let text ← Write.lift (withMark kind (stringText depth line s))
  modify fun p => p.writeBlock text

def writeConstant (asked : Level) (value kind : Tree) : Write Unit :=
  match value with
  | .atom (.str s) => writeString asked kind s
  | .atom .ellipsis => Write.text "..."
  | .atom a =>
    match number? a with
    | some s => Write.delimited Level.constant asked do
      Write.text (← Write.lift (Atom.unlessLong a.isLong s))
    | none => Write.text a.spelling
  | t => do Write.text (← Write.lift t.repr)

/-! ### Trees -/

/-- The operand of a unary operator has to be a node. -/
def checkSole (t : Tree) : Except Fault Unit := do
  checkOperand t
  if !t.isNode then throw (.missingAttribute t.className "_p_op")

/-- The targets of an assignment as a list. -/
def targetItems (targets : Tree) : Except Fault (List Tree) :=
  match targets.items with
  | .ok items => .ok items
  | .error _ => .error (.notSpreadable targets.className)

/-- A place in a program: the level that it asks for, and whether other things than nodes may stand
in it. -/
structure Place where
  asked : Level
  takesLoose : Bool

namespace Place

/-- A place for a node only. -/
def strict (asked : Level) : Place := ⟨asked, false⟩

/-- A place for a node or a loose value. -/
def loose (asked : Level) : Place := ⟨asked, true⟩

/-- Writes what is no node. -/
def fill (place : Place) (t : Tree) : Write Unit :=
  if place.takesLoose then writeLoose t else Write.fail (.unsupportedNode t.className)

end Place

mutual

/-- Writes a tree in its place. -/
def write (style : Style) (place : Place) (path : List Step) : Tree → Write Unit
  | .atom a => place.fill (.atom a)
  | .list items => place.fill (.list items)
  | .node k s fields => do
    match k, fields with
      | .module, body :: _ => writeBody style (path ++ [.field "body"]) body
      | .interactive, body :: _ => writeBody style (path ++ [.field "body"]) body
      | .expression, [body] => write style (.strict Level.highest) (path ++ [.field "body"]) body
      | .assign, targets :: value :: _ => do
        let items ← Write.lift (targetItems targets)
        Write.lift (checkOperands (value :: items))
        style.opening (.node k s fields)
        match targets with
          | .list targets => writeTargets style (path ++ [.field "targets"]) 0 targets
          | _ => pure ()
        write style (.strict Level.statement) (path ++ [.field "value"]) value
      | .exprStmt, [value] => do
        Write.lift (checkOperand value)
        style.opening (.node k s fields)
        match value with
          | .list items => writeNodes style (path ++ [.field "value"]) 0 items
          | .atom _ => pure ()
          | t => write style (.strict Level.statement) (path ++ [.field "value"]) t
      | .name, id :: _ => write style (.loose Level.highest) (path ++ [.field "id"]) id
      | .constant, value :: kind :: _ => writeConstant place.asked value kind
      | .unaryOp, [operator, operand] => do
        let (text, own) ← Write.lift (sign k operator)
        Write.delimited own place.asked do
          Write.lift (checkSole operand)
          Write.text (leadingSign text)
          write style (.loose own) (path ++ [.field "operand"]) operand
      | .binOp, [left, operator, right] => do
        let (text, own) ← Write.lift (sign k operator)
        let (askedLeft, askedRight) := operandLevels own
        Write.delimited own place.asked do
          Write.lift (checkOperands [left, right])
          write style (.loose askedLeft) (path ++ [.field "left"]) left
          Write.text (" " ++ text ++ " ")
          write style (.loose askedRight) (path ++ [.field "right"]) right
      | k, _ => Write.fail (.unsupportedNode k.className)
    style.note path (.node k s fields)

/-- Writes the body of a module, which may hold other things than statements. -/
def writeBody (style : Style) (path : List Step) : Tree → Write Unit
  | .list items => writeItems style path 0 items
  | .atom a =>
    match Tree.items (.atom a) with
    | .ok items => items.forM writeLoose
    | .error _ => Write.fail (.notArguments a.className)
  | .node k _ _ => Write.fail (.notArguments k.className)

def writeItems (style : Style) (path : List Step) (i : Nat) : List Tree → Write Unit
  | [] => return ()
  | t :: ts => do
    write style (.loose Level.highest) (path ++ [.item i]) t
    writeItems style path (i + 1) ts

/-- Writes targets, each with an equals sign behind it. -/
def writeTargets (style : Style) (path : List Step) (i : Nat) : List Tree → Write Unit
  | [] => return ()
  | t :: ts => do
    write style (.loose Level.statement) (path ++ [.item i]) t
    Write.text " = "
    writeTargets style path (i + 1) ts

/-- Writes the nodes of a list that stands as a statement. -/
def writeNodes (style : Style) (path : List Step) (i : Nat) : List Tree → Write Unit
  | [] => return ()
  | t :: ts => do
    if t.isNode then write style (.strict Level.statement) (path ++ [.item i]) t
    writeNodes style path (i + 1) ts

end

/-- The program text of a tree. -/
def render (style : Style) (t : Tree) : Except Fault String := do
  let ((), page) ← (write style (.strict Level.highest) [] t).run Page.blank
  page.print

end ScopeLint.Source

import ScopeLint.Tree.Role
import ScopeLint.Text.Character

/-! The order in which a tree is gone through for its scopes, as a list of events. Decorators,
bases and defaults stand outside the scope of their definition. Annotations, keywords of a class,
results of a function and positional-only parameters are not visited. A definition is an
occurrence of its name in the scope around it. -/

namespace ScopeLint

inductive Event where
  /-- A scope of its own begins at a node. -/
  | enter (owner : Tree)
  | leave
  /-- A name stands somewhere; without a name, what stands for it is no text. -/
  | occur (name : Option String) (site : Site)
  | declareGlobal (names : List Tree)
  /-- An import statement. -/
  | importing (site : Site)
  | importsAll
  | importsFuture (names : List Atom)
  | fail (fault : Fault)

/-- How the nodes of a kind are visited. -/
inductive VisitRule where
  | module | function | classDef | lambda | parameters | parameter | name | global | assign
  | handler | importStmt | importFrom | plain
deriving DecidableEq

def Kind.visitRule : Kind → VisitRule
  | .module => .module
  | .functionDef => .function
  | .classDef => .classDef
  | .lambda => .lambda
  | .parameters => .parameters
  | .parameter => .parameter
  | .name => .name
  | .globalStmt => .global
  | .assign => .assign
  | .exceptHandler => .handler
  | .importStmt => .importStmt
  | .importFrom => .importFrom
  | _ => .plain

namespace Tree

/-- Visiting what is no node. -/
def notVisitable (t : Tree) : Event := .fail (.missingAttribute t.className "_fields")

/-- A node that takes the line and the column of the node around it. -/
def placedBy (k : Kind) (s : Span) (fields : List Tree) (up : Tree) : Except Fault Tree := do
  let line ← up.get "lineno"
  let column ← up.get "col_offset"
  let asAtom : Tree → Option Atom
    | .atom a => some a
    | _ => none
  return .node k { s with line := asAtom line, column := asAtom column } fields

/-- The name that an imported item is bound to: its alias or else its own name. -/
def boundName (item : Tree) : Except Fault Tree := do
  let asname ← item.get "asname"
  if asname.truth then return asname else item.get "name"

/-- The event for one item of an import statement. Of a dotted name the first part is bound. -/
def importedEvent (site : Site) (item : Tree) : Event :=
  match item.boundName with
  | .error fault => .fail fault
  | .ok (.atom (.str "*")) => .importsAll
  | .ok (.atom (.str name)) => .occur ((Text.dottedParts name).head?) site
  | .ok (.atom (.bytes _)) => .fail .splitBytes
  | .ok t => .fail (.missingAttribute t.className "split")

def importEvents (site : Site) (names : Tree) : List Event :=
  .importing site :: match names.items with
    | .ok items => items.map (importedEvent site)
    | .error fault => [.fail fault]

/-- Imports from the future only leave their names. -/
def futureEvents (names : Tree) : List Event :=
  .importsFuture [] :: match names.items with
    | .ok items => items.map fun item =>
      match item.get "name" with
      | .ok (.atom a) => .importsFuture [a]
      | .ok (.list _) => .fail (.notHashable "list")
      | .ok _ => .importsFuture []
      | .error fault => .fail fault
    | .error fault => [.fail fault]

def globalEvents (names : Tree) : List Event :=
  match names.items with
  | .ok items => [.declareGlobal items]
  | .error fault => [.declareGlobal [], .fail fault]

/-- A parameter that takes all remaining arguments, as a text or as a node that is visited. -/
def catchAllEvents (site : Site) (t : Tree) (visited : List Event) : List Event :=
  match t with
  | .atom (.str name) => [.occur (some name) site]
  | .atom .null => []
  | _ => visited

/-- The name of an exception, as a text or as a node that is visited. -/
def handlerNameEvents (site : Site) (t : Tree) (visited : List Event) : List Event :=
  match t.str? with
  | some name => [.occur (some name) site]
  | none => if t.truth then visited else []

mutual

/-- The events of visiting a tree at a place. -/
def events (trail : Trail) : Tree → List Event
  | .atom a => [notVisitable (.atom a)]
  | .list items => [notVisitable (.list items)]
  | .node k s fields =>
    let here : Tree := .node k s fields
    let site : Site := ⟨trail, here⟩
    let inside := trail.inside here
    match k.visitRule, fields with
    | .module, fields => .enter here :: fieldEvents inside k.fields fields ++ [.leave]
    | .function, [name, args, body, decorators, _, _] =>
      .occur name.str? site :: allEvents (inside.field "decorator_list") decorators
        ++ defaultEvents (inside.field "args") args
        ++ .enter here :: events (inside.field "args") args
        ++ allEvents (inside.field "body") body ++ [.leave]
    | .classDef, [name, bases, _, body, decorators] =>
      .occur name.str? site :: allEvents (inside.field "decorator_list") decorators
        ++ allEvents (inside.field "bases") bases
        ++ .enter here :: allEvents (inside.field "body") body ++ [.leave]
    | .lambda, [args, body] =>
      defaultEvents (inside.field "args") args
        ++ .enter here :: events (inside.field "args") args
        ++ events (inside.field "body") body ++ [.leave]
    | .parameters, [_, args, vararg, kwonly, _, kwarg, _] =>
      allEvents (inside.field "args") args ++
        match site.parent.bind (placedBy k s fields) with
        | .error fault => [.fail fault]
        | .ok placed =>
          let inside := trail.inside placed
          catchAllEvents ⟨trail, placed⟩ vararg (events (inside.field "vararg") vararg)
            ++ catchAllEvents ⟨trail, placed⟩ kwarg (events (inside.field "kwarg") kwarg)
            ++ allEvents (inside.field "kwonlyargs") kwonly
    | .parameter, name :: _ => [.occur name.str? site]
    | .name, name :: _ => [.occur name.str? site]
    | .global, [names] => globalEvents names
    | .assign, targets :: value :: _ =>
      events (inside.field "value") value ++ allEvents (inside.field "targets") targets
    | .handler, [type, name, body] =>
      events (inside.field "type") type
        ++ handlerNameEvents site name (events (inside.field "name") name)
        ++ allEvents (inside.field "body") body
    | .importStmt, [names] => importEvents site names
    | .importFrom, module :: names :: _ =>
      if module.str? = some "__future__" then futureEvents names else importEvents site names
    | _, fields => fieldEvents inside k.fields fields
termination_by structural t => t

/-- Every item of a list is visited. -/
def allEvents (trail : Trail) : Tree → List Event
  | .list items => itemEvents trail 0 items
  | .atom a =>
    match Tree.items (.atom a) with
    | .ok items => items.map notVisitable
    | .error fault => [.fail fault]
  | .node k _ _ => [.fail (.notIterable k.className)]
termination_by structural t => t

def itemEvents (trail : Trail) (i : Nat) : List Tree → List Event
  | [] => []
  | t :: ts => events (trail.item i) t ++ itemEvents trail (i + 1) ts
termination_by structural ts => ts

/-- The nodes in the fields are visited, those in lists too, and all else is passed over. -/
def fieldEvents (trail : Trail) : List String → List Tree → List Event
  | name :: names, field :: fields =>
    let here := match field with
      | .list items => nodeEvents (trail.field name) 0 items
      | t => if t.isNode then events (trail.field name) t else []
    here ++ fieldEvents trail names fields
  | _, _ => []
termination_by structural _ ts => ts

def nodeEvents (trail : Trail) (i : Nat) : List Tree → List Event
  | [] => []
  | t :: ts =>
    let here := if t.isNode then events (trail.item i) t else []
    here ++ nodeEvents trail (i + 1) ts
termination_by structural ts => ts

/-- The defaults of parameters. -/
def defaultEvents (trail : Trail) : Tree → List Event
  | .node k s fields =>
    let inside := trail.inside (.node k s fields)
    match k.visitRule, fields with
    | .parameters, [_, _, _, _, keywords, _, defaults] =>
      allEvents (inside.field "defaults") defaults
        ++ allEvents (inside.field "kw_defaults") keywords
    | _, _ => [.fail (.missingAttribute k.className "defaults")]
  | .atom a => [.fail (.missingAttribute a.className "defaults")]
  | .list _ => [.fail (.missingAttribute "list" "defaults")]
termination_by structural t => t

end

end Tree

end ScopeLint

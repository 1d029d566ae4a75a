import ScopeLint.Template.Basic

/-! Templates from the bodies of functions. The parameters of the function, with the classes that
are their defaults, become captures wherever they stand as names or as parameters, and `ast.X`
becomes a test for the class `X`. Visiting a parameter leaves a line in the output. -/

namespace ScopeLint

/-- The output lines are kept also when the compilation fails. -/
abbrev Compile := ExceptT Fault (StateM (List String))

/-- A parameter of a template and its classes, if it has any. -/
abbrev TemplateParam := String × Option CaptureClass

namespace Template

/-- The capture of a name, if it is a parameter. -/
def capture? (params : List TemplateParam) (name : String) : Option Template := do
  let classes ← (params.lookup name).join
  return .capture name classes

/-- A node with a name, or the capture of the name. Lists cannot be looked up as names. -/
def ofNamed (params : List TemplateParam) (t : Tree) : Tree → Except Fault Template
  | .atom (.str name) => .ok ((capture? params name).getD (ofTree t))
  | .list _ => .error (.notHashable "list")
  | _ => .ok (ofTree t)

/-- The constants that used to be names are never parameters. -/
def ofName (params : List TemplateParam) (t id : Tree) : Except Fault Template :=
  if id.str?.any ["True", "False", "None"].contains then .ok (ofTree t)
  else ofNamed params t id

/-- The test for a class by its name. -/
def ofClassName (name : Tree) : Except Fault Template :=
  match name with
  | .atom (.str n) =>
    match NodeClass.ofName? n with
    | some c => .ok (.test (some c))
    | none => if NodeClass.otherNames.contains n then .ok (.test none) else .error (.unknownClass n)
  | t => .error (.notClassName t.className)

def ofAttribute (t value attr : Tree) : Except Fault Template :=
  if value.isKind .name && (value.get? "id").any (fun id => id.str? == some "ast") then
    ofClassName attr
  else .ok (ofTree t)

def lift (e : Except Fault Template) : Compile Template :=
  match e with
  | .ok t => return t
  | .error fault => throw fault

def paramLine : String := "visit_arg <ast.arg object>"

mutual

/-- Compiles a node. Names, parameters and attributes are not gone into. -/
def compile (params : List TemplateParam) : Tree → Compile Template
  | .atom a => throw (.missingAttribute a.className "_fields")
  | .list _ => throw (.missingAttribute "list" "_fields")
  | .node k s fields =>
    match k, fields with
    | .name, id :: _ => lift (ofName params (.node k s fields) id)
    | .parameter, name :: _ => do
      modify (· ++ [paramLine])
      lift (ofNamed params (.node k s fields) name)
    | .attribute, value :: attr :: _ => lift (ofAttribute (.node k s fields) value attr)
    | k, fields => return .node k (← compileFields params fields)

/-- Nodes in fields are compiled, and every item of a list has to be a node. -/
def compileFields (params : List TemplateParam) : List Tree → Compile (List Template)
  | [] => return []
  | field :: fields => do
    let here ← match field with
      | .atom a => pure (.atom a)
      | .list items => do pure (.list (← compileAll params items))
      | t => compile params t
    return here :: (← compileFields params fields)

def compileAll (params : List TemplateParam) : List Tree → Compile (List Template)
  | [] => return []
  | t :: ts => do
    let here ← compile params t
    return here :: (← compileAll params ts)

end

/-- A template that is a single expression matches inside of statements too. -/
def unwrap : List Template → Template
  | [.node .exprStmt [value]] => value
  | ts => .list ts

/-- The template of a function with parameters and a body. -/
def ofFunction (params : List TemplateParam) (body : List Tree) : Compile Template := do
  if params.any fun p => p.2.isNone then throw .untypedParameters
  return unwrap (← compileAll params body)

end Template

end ScopeLint

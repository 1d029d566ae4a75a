/-! The kinds of nodes of a Python 3.11 syntax tree: the class name of a node, the abstract
class above it, its fields in order, and whether it has a position in the source. -/

namespace ScopeLint

/-- The abstract classes of nodes. The nodes of `part` stand directly under the common root. -/
inductive Group where
  | part | boolop | cmpop | excepthandler | expr | exprContext
  | mod | operator | pattern | stmt | typeIgnore | unaryop
deriving DecidableEq

namespace Group

def all : List Group :=
  [.part, .boolop, .cmpop, .excepthandler, .expr, .exprContext, .mod,
   .operator, .pattern, .stmt, .typeIgnore, .unaryop]

def className : Group → String
  | .part => "AST"
  | .boolop => "boolop"
  | .cmpop => "cmpop"
  | .excepthandler => "excepthandler"
  | .expr => "expr"
  | .exprContext => "expr_context"
  | .mod => "mod"
  | .operator => "operator"
  | .pattern => "pattern"
  | .stmt => "stmt"
  | .typeIgnore => "type_ignore"
  | .unaryop => "unaryop"

end Group

inductive Kind where
  | importAlias | parameter | parameters | comprehension | keywordArg | matchCase | withItem
  | andOp | orOp
  | eqOp | gtOp | gtEOp | inOp | isOp | isNotOp | ltOp | ltEOp | notEqOp | notInOp
  | exceptHandler
  | attribute | await | binOp | boolOp | call | compare | constant | dict | dictComp
  | formattedValue | generatorExp | ifExp | joinedStr | lambda | list | listComp | name
  | namedExpr | set | setComp | slice | starred | subscript | tuple | unaryOp | yield | yieldFrom
  | del | load | param | store
  | expression | functionType | interactive | module
  | addOp | bitAndOp | bitOrOp | bitXorOp | divOp | floorDivOp | lShiftOp | matMultOp | modOp
  | multOp | powOp | rShiftOp | subOp
  | matchAs | matchClass | matchMapping | matchOr | matchSequence | matchSingleton | matchStar
  | matchValue
  | annAssign | assertStmt | assign | asyncFor | asyncFunctionDef | asyncWith | augAssign
  | breakStmt | classDef | continueStmt | deleteStmt | exprStmt | forStmt | functionDef
  | globalStmt | ifStmt | importStmt | importFrom | matchStmt | nonlocalStmt | passStmt
  | raiseStmt | returnStmt | tryStmt | tryStar | whileStmt | withStmt
  | typeIgnore
  | invertOp | notOp | uAddOp | uSubOp
deriving DecidableEq

/-- What the kind of a node fixes. -/
structure Shape where
  name : String
  group : Group
  fields : List String
  located : Bool
deriving DecidableEq

namespace Kind

def shape : Kind → Shape
  | .importAlias => ⟨"alias", .part, ["name", "asname"], true⟩
  | .parameter => ⟨"arg", .part, ["arg", "annotation", "type_comment"], true⟩
  | .parameters =>
    ⟨"arguments", .part,
      ["posonlyargs", "args", "vararg", "kwonlyargs", "kw_defaults", "kwarg", "defaults"], false⟩
  | .comprehension => ⟨"comprehension", .part, ["target", "iter", "ifs", "is_async"], false⟩
  | .keywordArg => ⟨"keyword", .part, ["arg", "value"], true⟩
  | .matchCase => ⟨"match_case", .part, ["pattern", "guard", "body"], false⟩
  | .withItem => ⟨"withitem", .part, ["context_expr", "optional_vars"], false⟩
  | .andOp => ⟨"And", .boolop, [], false⟩
  | .orOp => ⟨"Or", .boolop, [], false⟩
  | .eqOp => ⟨"Eq", .cmpop, [], false⟩
  | .gtOp => ⟨"Gt", .cmpop, [], false⟩
  | .gtEOp => ⟨"GtE", .cmpop, [], false⟩
  | .inOp => ⟨"In", .cmpop, [], false⟩
  | .isOp => ⟨"Is", .cmpop, [], false⟩
  | .isNotOp => ⟨"IsNot", .cmpop, [], false⟩
  | .ltOp => ⟨"Lt", .cmpop, [], false⟩
  | .ltEOp => ⟨"LtE", .cmpop, [], false⟩
  | .notEqOp => ⟨"NotEq", .cmpop, [], false⟩
  | .notInOp => ⟨"NotIn", .cmpop, [], false⟩
  | .exceptHandler => ⟨"ExceptHandler", .excepthandler, ["type", "name", "body"], true⟩
  | .attribute => ⟨"Attribute", .expr, ["value", "attr", "ctx"], true⟩
  | .await => ⟨"Await", .expr, ["value"], true⟩
  | .binOp => ⟨"BinOp", .expr, ["left", "op", "right"], true⟩
  | .boolOp => ⟨"BoolOp", .expr, ["op", "values"], true⟩
  | .call => ⟨"Call", .expr, ["func", "args", "keywords"], true⟩
  | .compare => ⟨"Compare", .expr, ["left", "ops", "comparators"], true⟩
  | .constant => ⟨"Constant", .expr, ["value", "kind"], true⟩
  | .dict => ⟨"Dict", .expr, ["keys", "values"], true⟩
  | .dictComp => ⟨"DictComp", .expr, ["key", "value", "generators"], true⟩
  | .formattedValue => ⟨"FormattedValue", .expr, ["value", "conversion", "format_spec"], true⟩
  | .generatorExp => ⟨"GeneratorExp", .expr, ["elt", "generators"], true⟩
  | .ifExp => ⟨"IfExp", .expr, ["test", "body", "orelse"], true⟩
  | .joinedStr => ⟨"JoinedStr", .expr, ["values"], true⟩
  | .lambda => ⟨"Lambda", .expr, ["args", "body"], true⟩
  | .list => ⟨"List", .expr, ["elts", "ctx"], true⟩
  | .listComp => ⟨"ListComp", .expr, ["elt", "generators"], true⟩
  | .name => ⟨"Name", .expr, ["id", "ctx"], true⟩
  | .namedExpr => ⟨"NamedExpr", .expr, ["target", "value"], true⟩
  | .set => ⟨"Set", .expr, ["elts"], true⟩
  | .setComp => ⟨"SetComp", .expr, ["elt", "generators"], true⟩
  | .slice => ⟨"Slice", .expr, ["lower", "upper", "step"], true⟩
  | .starred => ⟨"Starred", .expr, ["value", "ctx"], true⟩
  | .subscript => ⟨"Subscript", .expr, ["value", "slice", "ctx"], true⟩
  | .tuple => ⟨"Tuple", .expr, ["elts", "ctx"], true⟩
  | .unaryOp => ⟨"UnaryOp", .expr, ["op", "operand"], true⟩
  | .yield => ⟨"Yield", .expr, ["value"], true⟩
  | .yieldFrom => ⟨"YieldFrom", .expr, ["value"], true⟩
  | .del => ⟨"Del", .exprContext, [], false⟩
  | .load => ⟨"Load", .exprContext, [], false⟩
  | .param => ⟨"Param", .exprContext, [], false⟩
  | .store => ⟨"Store", .exprContext, [], false⟩
  | .expression => ⟨"Expression", .mod, ["body"], false⟩
  | .functionType => ⟨"FunctionType", .mod, ["argtypes", "returns"], false⟩
  | .interactive => ⟨"Interactive", .mod, ["body"], false⟩
  | .module => ⟨"Module", .mod, ["body", "type_ignores"], false⟩
  | .addOp => ⟨"Add", .operator, [], false⟩
  | .bitAndOp => ⟨"BitAnd", .operator, [], false⟩
  | .bitOrOp => ⟨"BitOr", .operator, [], false⟩
  | .bitXorOp => ⟨"BitXor", .operator, [], false⟩
  | .divOp => ⟨"Div", .operator, [], false⟩
  | .floorDivOp => ⟨"FloorDiv", .operator, [], false⟩
  | .lShiftOp => ⟨"LShift", .operator, [], false⟩
  | .matMultOp => ⟨"MatMult", .operator, [], false⟩
  | .modOp => ⟨"Mod", .operator, [], false⟩
  | .multOp => ⟨"Mult", .operator, [], false⟩
  | .powOp => ⟨"Pow", .operator, [], false⟩
  | .rShiftOp => ⟨"RShift", .operator, [], false⟩
  | .subOp => ⟨"Sub", .operator, [], false⟩
  | .matchAs => ⟨"MatchAs", .pattern, ["pattern", "name"], true⟩
  | .matchClass => ⟨"MatchClass", .pattern, ["cls", "patterns", "kwd_attrs", "kwd_patterns"], true⟩
  | .matchMapping => ⟨"MatchMapping", .pattern, ["keys", "patterns", "rest"], true⟩
  | .matchOr => ⟨"MatchOr", .pattern, ["patterns"], true⟩
  | .matchSequence => ⟨"MatchSequence", .pattern, ["patterns"], true⟩
  | .matchSingleton => ⟨"MatchSingleton", .pattern, ["value"], true⟩
  | .matchStar => ⟨"MatchStar", .pattern, ["name"], true⟩
  | .matchValue => ⟨"MatchValue", .pattern, ["value"], true⟩
  | .annAssign => ⟨"AnnAssign", .stmt, ["target", "annotation", "value", "simple"], true⟩
  | .assertStmt => ⟨"Assert", .stmt, ["test", "msg"], true⟩
  | .assign => ⟨"Assign", .stmt, ["targets", "value", "type_comment"], true⟩
  | .asyncFor => ⟨"AsyncFor", .stmt, ["target", "iter", "body", "orelse", "type_comment"], true⟩
  | .asyncFunctionDef =>
    ⟨"AsyncFunctionDef", .stmt,
      ["name", "args", "body", "decorator_list", "returns", "type_comment"], true⟩
  | .asyncWith => ⟨"AsyncWith", .stmt, ["items", "body", "type_comment"], true⟩
  | .augAssign => ⟨"AugAssign", .stmt, ["target", "op", "value"], true⟩
  | .breakStmt => ⟨"Break", .stmt, [], true⟩
  | .classDef => ⟨"ClassDef", .stmt, ["name", "bases", "keywords", "body", "decorator_list"], true⟩
  | .continueStmt => ⟨"Continue", .stmt, [], true⟩
  | .deleteStmt => ⟨"Delete", .stmt, ["targets"], true⟩
  | .exprStmt => ⟨"Expr", .stmt, ["value"], true⟩
  | .forStmt => ⟨"For", .stmt, ["target", "iter", "body", "orelse", "type_comment"], true⟩
  | .functionDef =>
    ⟨"FunctionDef", .stmt,
      ["name", "args", "body", "decorator_list", "returns", "type_comment"], true⟩
  | .globalStmt => ⟨"Global", .stmt, ["names"], true⟩
  | .ifStmt => ⟨"If", .stmt, ["test", "body", "orelse"], true⟩
  | .importStmt => ⟨"Import", .stmt, ["names"], true⟩
  | .importFrom => ⟨"ImportFrom", .stmt, ["module", "names", "level"], true⟩
  | .matchStmt => ⟨"Match", .stmt, ["subject", "cases"], true⟩
  | .nonlocalStmt => ⟨"Nonlocal", .stmt, ["names"], true⟩
  | .passStmt => ⟨"Pass", .stmt, [], true⟩
  | .raiseStmt => ⟨"Raise", .stmt, ["exc", "cause"], true⟩
  | .returnStmt => ⟨"Return", .stmt, ["value"], true⟩
  | .tryStmt => ⟨"Try", .stmt, ["body", "handlers", "orelse", "finalbody"], true⟩
  | .tryStar => ⟨"TryStar", .stmt, ["body", "handlers", "orelse", "finalbody"], true⟩
  | .whileStmt => ⟨"While", .stmt, ["test", "body", "orelse"], true⟩
  | .withStmt => ⟨"With", .stmt, ["items", "body", "type_comment"], true⟩
  | .typeIgnore => ⟨"TypeIgnore", .typeIgnore, ["lineno", "tag"], false⟩
  | .invertOp => ⟨"Invert", .unaryop, [], false⟩
  | .notOp => ⟨"Not", .unaryop, [], false⟩
  | .uAddOp => ⟨"UAdd", .unaryop, [], false⟩
  | .uSubOp => ⟨"USub", .unaryop, [], false⟩

/-- The name of the class of the node. -/
def className (k : Kind) : String := k.shape.name

def group (k : Kind) : Group := k.shape.group

def fields (k : Kind) : List String := k.shape.fields

/-- Whether nodes of the kind have a line and a column. -/
def located (k : Kind) : Bool := k.shape.located

def all : List Kind :=
  [.importAlias, .parameter, .parameters, .comprehension, .keywordArg, .matchCase, .withItem,
   .andOp, .orOp, .eqOp, .gtOp, .gtEOp, .inOp, .isOp, .isNotOp, .ltOp, .ltEOp, .notEqOp, .notInOp,
   .exceptHandler, .attribute, .await, .binOp, .boolOp, .call, .compare, .constant, .dict,
   .dictComp, .formattedValue, .generatorExp, .ifExp, .joinedStr, .lambda, .list, .listComp, .name,
   .namedExpr, .set, .setComp, .slice, .starred, .subscript, .tuple, .unaryOp, .yield, .yieldFrom,
   .del, .load, .param, .store, .expression, .functionType, .interactive, .module, .addOp,
   .bitAndOp, .bitOrOp, .bitXorOp, .divOp, .floorDivOp, .lShiftOp, .matMultOp, .modOp, .multOp,
   .powOp, .rShiftOp, .subOp, .matchAs, .matchClass, .matchMapping, .matchOr, .matchSequence,
   .matchSingleton, .matchStar, .matchValue, .annAssign, .assertStmt, .assign, .asyncFor,
   .asyncFunctionDef, .asyncWith, .augAssign, .breakStmt, .classDef, .continueStmt, .deleteStmt,
   .exprStmt, .forStmt, .functionDef, .globalStmt, .ifStmt, .importStmt, .importFrom, .matchStmt,
   .nonlocalStmt, .passStmt, .raiseStmt, .returnStmt, .tryStmt, .tryStar, .whileStmt, .withStmt,
   .typeIgnore, .invertOp, .notOp, .uAddOp, .uSubOp]

/-- The kind with a class name. -/
def ofClassName? (s : String) : Option Kind := all.find? fun k => k.className == s

end Kind

end ScopeLint

import ScopeLint.Tree.Basic

/-! Classes of nodes by name: the kinds, the groups of kinds, all nodes, and the classes of
constants by their values. -/

namespace ScopeLint

inductive NodeClass where
  | any
  | group (g : Group)
  | kind (k : Kind)
  | number
  | string
  | bytes
  | nameConstant
  | ellipsis
  /-- A class that no node belongs to. -/
  | vacant
deriving DecidableEq

namespace NodeClass

/-- Whether a tree belongs to a class. Only nodes do. -/
def holds (t : Tree) : NodeClass → Bool
  | any => t.isNode
  | group g => t.kind?.any fun k => k.group == g
  | kind k => t.isKind k
  | number => t.numberConstant?.isSome
  | string => t.stringConstant?.isSome
  | bytes => match t.constant? with
    | some (.bytes _) => true
    | _ => false
  | nameConstant => match t.constant? with
    | some (.bool _) | some .null => true
    | _ => false
  | ellipsis => t.constant? == some .ellipsis
  | vacant => false

/-- Names of classes without nodes. -/
def vacantNames : List String :=
  ["AugLoad", "AugStore", "ExtSlice", "Index", "IntEnum", "NodeTransformer", "NodeVisitor",
   "Suite", "_ABC", "_Precedence", "_Unparser", "__class__", "auto", "nullcontext", "slice"]

/-- Names that stand for something, but not for a class. -/
def otherNames : List String :=
  ["PyCF_ALLOW_TOP_LEVEL_AWAIT", "PyCF_ONLY_AST", "PyCF_TYPE_COMMENTS", "_ALL_QUOTES", "_INFSTR",
   "_MULTI_QUOTES", "_SINGLE_QUOTES", "__annotations__", "__builtins__", "__cached__",
   "__delattr__", "__dict__", "__dir__", "__doc__", "__eq__", "__file__", "__format__", "__ge__",
   "__getattribute__", "__getstate__", "__gt__", "__hash__", "__init__", "__init_subclass__",
   "__le__", "__loader__", "__lt__", "__name__", "__ne__", "__new__", "__package__", "__reduce__",
   "__reduce_ex__", "__repr__", "__setattr__", "__sizeof__", "__spec__", "__str__",
   "__subclasshook__", "_const_node_type_names", "_const_types", "_const_types_not",
   "_dims_getter", "_dims_setter", "_getter", "_new", "_pad_whitespace", "_setter", "_simple_enum",
   "_splitlines_no_ff", "contextmanager", "copy_location", "dump", "fix_missing_locations",
   "get_docstring", "get_source_segment", "increment_lineno", "iter_child_nodes", "iter_fields",
   "literal_eval", "main", "parse", "sys", "unparse", "walk"]

/-- The class with a name. -/
def ofName? (name : String) : Option NodeClass :=
  match name with
  | "AST" => some any
  | "Num" => some number
  | "Str" => some string
  | "Bytes" => some bytes
  | "NameConstant" => some nameConstant
  | "Ellipsis" => some ellipsis
  | _ =>
    match Kind.ofClassName? name, Group.all.find? fun g => g.className == name with
    | some k, _ => some (.kind k)
    | none, some g => some (.group g)
    | none, none => if vacantNames.contains name then some vacant else none

end NodeClass

end ScopeLint

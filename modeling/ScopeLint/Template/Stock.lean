import ScopeLint.Template.Compile

/-! The templates that come with the program: an `if` that returns the truth value it tests, and
a `map` over a lambda. -/

namespace ScopeLint.Template

/-- A node of which only the shape matters. -/
def plain (k : Kind) (fields : List Tree) : Tree := .node k Span.absent fields

def nameRead (id : String) : Tree := plain .name [.atom (.str id), plain .load []]

def returnTruth (b : Bool) : Tree := plain .returnStmt [plain .constant [.atom (.bool b), .null]]

/-- `if cond: return True else: return False`, for any expression `cond`. -/
def uselessIf : Compile Template :=
  ofFunction [("cond", some (.one (.group .expr)))]
    [plain .ifStmt [nameRead "cond", .list [returnTruth true], .list [returnTruth false]]]

/-- `map(lambda var: body, seq)`, for any expressions `body` and `seq`. -/
def mapLambda : Compile Template :=
  let var := plain .parameter [.atom (.str "var"), .null, .null]
  let params := plain .parameters
    [.list [], .list [var], .null, .list [], .list [], .null, .list []]
  ofFunction [("body", some (.one (.group .expr))), ("seq", some (.one (.group .expr)))]
    [plain .exprStmt [plain .call
      [nameRead "map", .list [plain .lambda [params, nameRead "body"], nameRead "seq"], .list []]]]

end ScopeLint.Template

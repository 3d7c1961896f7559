import ResourceQuery.Text.Ascii

set_option autoImplicit false

/-!
# Query: clauses and their words

A term of a query belongs to the first clause whose vocabulary has its word.
-/

namespace ResourceQuery

/-- The parts of a query. -/
inductive Clause where
  | filter
  | page
  | order
  | group
  | select
  deriving DecidableEq, Repr, Inhabited

namespace Clause

/-- The clauses in the order in which they are asked. -/
def priority : List Clause := [.filter, .page, .order, .group, .select]

/-- The name of a clause. -/
def name : Clause → String
  | .filter => "where"
  | .page => "page"
  | .order => "order"
  | .group => "group"
  | .select => "select"

/-- The words of a clause. -/
def words : Clause → List String
  | .filter =>
    ["_key", "and", "or", "not", "eq", "ne", "n", "nn", "like", "sw", "ew", "lt", "le", "gt",
     "ge", "in", "out", "if", "w", "wo", "emp", "nemp"]
  | .page => ["offset", "limit", "page", "pageNum", "pageSize", "after"]
  | .order => ["order", "sort"]
  | .group => ["group"]
  | .select =>
    ["as", "includes", "distinct", "count", "sum", "min", "max", "if", "aggregate", "function",
     "countascol", "rowcount"]

/-- The clause has the word, without regard to case. -/
def hasWord (kind : Clause) (token : String) : Bool :=
  kind.words.any fun word => Text.sameWord word token

/-- The first clause that has the word. -/
def owner? (token : String) : Option Clause :=
  priority.find? fun kind => kind.hasWord token

end Clause
end ResourceQuery

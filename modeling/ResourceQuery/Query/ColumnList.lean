import ResourceQuery.Term

set_option autoImplicit false

/-!
# Query: ordering and grouping

Both are terms that list columns.
-/

namespace ResourceQuery

/-- One sort key. -/
structure SortKey where
  column : String
  ascending : Bool
  deriving DecidableEq, Repr, Inhabited

/-- `-column` sorts downwards, `column` and `+column` upwards. -/
def SortKey.ofToken (token : String) : SortKey :=
  match token.toList with
  | '-' :: column => ⟨String.ofList column, false⟩
  | '+' :: column => ⟨String.ofList column, true⟩
  | _ => ⟨token, true⟩

namespace ColumnList

/-- The term names a column to sort by. -/
def isColumn (t : Term) : Bool := t.isLeaf && t.token ∉ ["", "-", "+"]

/-- An ordering term names at least one column and nothing else. -/
def checkOrder (t : Term) : Except Fault Unit :=
  if !t.isLeaf && t.children.all isColumn then .ok ()
  else .error (.grammar (.expectedColumn t.token))

/-- A grouping term names at least one column and nothing else. -/
def checkGroup (t : Term) : Except Fault Unit :=
  if !t.isLeaf && t.children.all Term.isLeaf then .ok ()
  else .error (.grammar (.expectedColumn t.token))

end ColumnList
end ResourceQuery

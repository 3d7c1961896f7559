import ResourceQuery.Query

set_option autoImplicit false

/-!
# Requests

What a finished query asks for, clause by clause and free of its store.  This is
all that the targets see of a query.
-/

namespace ResourceQuery

/-- A computed column and its alias. -/
structure Computed where
  expression : Term
  label : Term
  deriving DecidableEq, Repr, Inhabited

/-- The query gave the column no name. -/
def Computed.isAnonymous (p : Computed) : Bool := p.label.token = Selection.anonymous

/-- What a query asks for. -/
structure Request where
  collection : Collection
  /-- Conditions that hold together. -/
  filters : List Term
  page : Paging
  /-- The values of the last `after` term. -/
  after : Option (List Term)
  sorts : List SortKey
  /-- Columns to group by. -/
  groups : List Term
  /-- Columns that are asked for by name. -/
  includes : List Term
  computed : List Computed
  distinct : Bool
  rowCount : Bool
  deriving DecidableEq, Repr, Inhabited

namespace Request

/-- The computed column of an `as` term. -/
def computed? (t : Term) : Option Computed :=
  if t.hasToken "as" then
    match t.children with
    | expression :: label :: _ => some ⟨expression, label⟩
    | _ => none
  else none

/-- What the terms of the clauses ask for. -/
def ofQuery (q : Query) : Request where
  collection := q.collection
  filters := q.terms .filter
  page := q.page
  after := q.page.after.map fun id => (q.store.read id).children
  sorts := (q.terms .order).flatMap fun t => t.children.map fun c => SortKey.ofToken c.token
  groups := (q.terms .group).flatMap Term.children
  includes := ((q.terms .select).filter (·.hasToken "includes")).flatMap Term.children
  computed := (q.terms .select).filterMap computed?
  distinct := (q.terms .select).any (·.hasToken "distinct")
  rowCount := (q.terms .select).any (·.hasToken "rowcount")

/-- Some computed column has the name. -/
def hasAlias (r : Request) (name : String) : Bool :=
  r.computed.any fun p => !p.isAnonymous && p.label.token = name

/-- The columns to be given as they are: those asked for by name or else those
grouped by. -/
def plainColumns (r : Request) : List Term :=
  if r.includes = [] then r.groups else r.includes

end Request
end ResourceQuery

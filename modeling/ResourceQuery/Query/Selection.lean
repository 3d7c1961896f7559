import ResourceQuery.Term.Store

set_option autoImplicit false

/-!
# Query: selection

Computed columns are kept as `as(expression,alias)`.  An aggregate without a
name gets the anonymous one, `aggregate(f,column,alias)` gives a computed column
and a grouping, and `countascol(column,v₁,…)` gives a count for each value and a
filter for all of them.
-/

namespace ResourceQuery.Selection

/-- The alias of computed columns that the query does not name. -/
def anonymous : String := "$$$ANON"

/-- The anonymous alias as a literal. -/
def anonymousLeaf : Term := .leaf anonymous (some .double)

/-- What a selection term contributes: terms of the selection itself, a
grouping, and a filter. -/
structure Claim where
  terms : List WordId
  grouping : Option WordId
  filter : Option WordId
  deriving DecidableEq, Repr, Inhabited

/-- A contribution to the selection alone. -/
def Claim.only (id : WordId) : Claim := ⟨[id], none, none⟩

/-- Names an aggregate by the anonymous alias. -/
def labelAnonymously (s : Store) (id : WordId) : WordId × Store :=
  let (label, s) := s.plant anonymousLeaf
  s.call "as" [id, label]

/-- `aggregate(f,column,alias)` becomes `as(f(column),alias)` and
`group(column)`. -/
def aggregate (s : Store) (id : WordId) : Except Fault Claim × Store :=
  let build (function column : WordId) (label? : Option WordId) : Except Fault Claim × Store :=
    if s.isLeaf function && !s.isQuoted function then
      let name := s.token function
      let s := s.detachAll (s.children id)
      let (grouping, s) := s.plant (.call "group" [s.read column])
      let (call, s) := s.call name [column]
      let (label, s) := match label? with
        | some label => (label, s)
        | none => s.plant anonymousLeaf
      let (named, s) := s.call "as" [call, label]
      (.ok ⟨[named], some grouping, none⟩, s)
    else (.error (.grammar (.expectedColumn (s.token id))), s)
  match s.children id with
  | [function, column] => build function column none
  | [function, column, label] => build function column (some label)
  | _ =>
    (.error (.grammar (.arity (s.token id) "a function, a column and an optional alias")), s)

/-- The count of the rows in which the column has the value, named by it. -/
def countOf (column value : Term) : Term :=
  .call "as" [.call "sum" [.call "if" [.call "eq" [column, value], .word "1", .word "0"]], value]

/-- `countascol(column,v₁,…)` becomes a count for each value and
`in(column,v₁,…)`. -/
def countAsColumns (s : Store) (id : WordId) : Except Fault Claim × Store :=
  match s.children id with
  | column :: value :: values =>
    let counts := (value :: values).map fun v => countOf (s.read column) (s.read v)
    let (terms, s) := s.plantAll counts
    let s := s.detachAll (column :: value :: values)
    let (filter, s) := s.call "in" (column :: value :: values)
    (.ok ⟨terms, none, some filter⟩, s)
  | _ => (.error (.grammar (.arity "countascol" "a column and at least one value")), s)

/-- What a selection term contributes. -/
def claim (s : Store) (id : WordId) : Except Fault Claim × Store :=
  let word := Text.lower (s.token id)
  if word ∈ ["count", "sum", "min", "max"] then
    if s.isLeaf id then (.error (.grammar (.arity word "a column")), s)
    else
      let (named, s) := labelAnonymously s id
      (.ok (.only named), s)
  else if word = "aggregate" ∨ word = "function" then aggregate s id
  else if word = "countascol" then countAsColumns s id
  else if word = "as" ∧ (s.children id).length ≠ 2 then
    (.error (.grammar (.arity word "an expression and an alias")), s)
  else (.ok (.only id), s)

end ResourceQuery.Selection

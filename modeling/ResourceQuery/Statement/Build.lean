import ResourceQuery.Value

set_option autoImplicit false

/-!
# Statements: binding values

A target compiles a request from left to right.  On the way it binds values and
keeps what it has to remember of the names it met: the joins of a relational
statement, the attribute names of a key-value request.
-/

namespace ResourceQuery

/-- The values bound so far, and what the target remembers of names. -/
structure Progress (σ : Type) where
  values : Bindings
  scope : σ
  deriving DecidableEq, Repr, Inhabited

/-- A step of compilation. -/
abbrev Build (σ α : Type) := StateT (Progress σ) (Except Fault) α

namespace Build

variable {σ : Type}

/-- Binds a value and gives the number of its marker, from one on. -/
def bind (column : String) (value : Value) : Build σ Nat := do
  let p ← get
  set { p with values := p.values ++ [(column, value)] }
  return p.values.length + 1

/-- A computation that only looks things up. -/
def lookup {α : Type} (x : Except Fault α) : Build σ α := StateT.lift x

end Build

/-! ## Arguments of terms -/

namespace Term

/-- The term has the wrong number of arguments. -/
def arity (t : Term) (expected : String) : Fault := .grammar (.arity t.token expected)

/-- The column that a term is about: its first argument, a bare word. -/
def column (t : Term) : Except Fault String :=
  match t.children with
  | column :: _ =>
    if column.isWord then .ok column.token else .error (.grammar (.expectedColumn t.token))
  | [] => .error (.grammar (.expectedColumn t.token))

/-- The arguments after the column, of which there is at least one. -/
def values (t : Term) : Except Fault (List Term) :=
  match t.children.tail with
  | [] => .error (t.arity "a column and 1 or more values")
  | values => .ok values

/-- The only argument after the column. -/
def value (t : Term) : Except Fault Term :=
  match t.children with
  | [_, value] => .ok value
  | _ => .error (t.arity "a column and one value")

/-- The text of a literal that is compared with a column. -/
def literal (column : String) (t : Term) : Except Fault String :=
  if t.isLeaf then .ok t.token
  else .error (.grammar (.invalidValue column t.render "a literal"))

/-- The path of a column that is asked for, a bare word. -/
def path (t : Term) : Except Fault String :=
  if t.isWord then .ok t.token else .error (.grammar (.expectedColumn t.render))

end Term
end ResourceQuery

import ResourceQuery.Number.Numeral
import ResourceQuery.Request
import ResourceQuery.Statement.Predicate

set_option autoImplicit false

/-!
# Statements: computed columns

The expression of a computed column: a column, an aggregate over an expression,
or a choice between two results, which may be numerals.
-/

namespace ResourceQuery

/-- Functions over the rows of a group. -/
inductive Aggregate where
  | count
  | sum
  | min
  | max
  | avg
  deriving DecidableEq, Repr, Inhabited

/-- The aggregates by their words in lower case. -/
def Aggregate.words : List (String × Aggregate) :=
  [("count", .count), ("sum", .sum), ("min", .min), ("max", .max), ("avg", .avg)]

/-- The aggregate of a word, without regard to case. -/
def Aggregate.ofWord? (word : String) : Option Aggregate :=
  (words.find? fun w => w.1 == Text.lower word).map Prod.snd

/-- The name of an aggregate in statements. -/
def Aggregate.name : Aggregate → String
  | .count => "COUNT"
  | .sum => "SUM"
  | .min => "MIN"
  | .max => "MAX"
  | .avg => "AVG"

/-- The expression of a computed column over the columns `C` of a target. -/
inductive Expression (C : Type) where
  /-- Whole rows. -/
  | everything
  | column (column : C)
  | numeral (text : String)
  | aggregate (function : Aggregate) (argument : Expression C)
  | choice (condition : Predicate C) (whenTrue whenFalse : Expression C)
  deriving Repr, Inhabited

/-- The expression for a leaf `*`, where such a leaf is taken. -/
def Expression.ofStar {C : Type} (e : Expression C) (taken : Bool) (t : Term) :
    Option (Expression C) :=
  if taken && t.isLeaf && t.token = "*" then some e else none

namespace Dialog

variable {σ C : Type} (d : Dialog σ C)

/-- A bare numeral. -/
def isNumeral (t : Term) : Bool := t.isWord && Number.isNumber t.token

/-- A leaf as an expression: the column that a bare word names. -/
def columnExpression (t : Term) : Build σ (Expression C) := do
  if t.isQuoted then throw (.grammar (.expectedColumn t.render))
  let (column, _) ← d.resolve t.token
  return .column column

/-- A result of a choice: a numeral, or any expression. -/
def branch (t : Term) (expression : Build σ (Expression C)) : Build σ (Expression C) :=
  if isNumeral t then return .numeral t.token else expression

/-- The expression of a term.  `star` gives the terms that stand for whole rows,
where `true` marks the argument of an aggregate. -/
def expression (star : Bool → Term → Option (Expression C)) (inside : Bool) :
    Term → Build σ (Expression C)
  | .node token quote children =>
    match star inside (.node token quote children), children with
    | some e, _ => return e
    | none, [] => d.columnExpression (.node token quote [])
    | none, children =>
      match Aggregate.ofWord? token with
      | some function =>
        match children with
        | [argument] => return .aggregate function (← expression star true argument)
        | _ => throw (.grammar (.arity token "one argument"))
      | none =>
        if Text.lower token = "if" then
          match children with
          | [condition, whenTrue, whenFalse] => do
            let c ← d.predicate condition
            let t ← branch whenTrue (expression star false whenTrue)
            let f ← branch whenFalse (expression star false whenFalse)
            return .choice c t f
          | _ => throw (.grammar (.arity token "a condition and two results"))
        else throw (d.unsupported token "count, sum, min, max, avg, if")

/-! ## Columns by name -/

/-- The columns of the terms, each with the path it was asked for by and the
property it leads to. -/
def columns : List Term → Build σ (List (String × C × Property))
  | [] => return []
  | t :: ts => do
    let path ← Build.lookup t.path
    let (column, property) ← d.resolve path
    let rest ← columns ts
    return (path, column, property) :: rest

/-- The columns to group by. -/
def groups : List Term → Build σ (List C)
  | [] => return []
  | t :: ts => do
    let (column, _) ← d.resolve t.token
    let rest ← groups ts
    return column :: rest

/-- The expressions of computed columns. -/
def computed (star : Bool → Term → Option (Expression C)) :
    List Computed → Build σ (List (Computed × Expression C))
  | [] => return []
  | p :: ps => do
    let e ← d.expression star false p.expression
    let rest ← computed star ps
    return (p, e) :: rest

end Dialog

/-! ## Spelling -/

/-- How a target phrases a choice between two results. -/
inductive ChoicePhrase where
  /-- `CASE WHEN … THEN … ELSE … END` -/
  | cases
  /-- `(… ? … : …)` -/
  | conditional
  deriving DecidableEq, Repr, Inhabited

/-- The pieces of a choice. -/
def ChoicePhrase.pieces (condition whenTrue whenFalse : List Piece) : ChoicePhrase → List Piece
  | .cases =>
    .fixed "CASE WHEN " :: condition ++ .fixed " THEN " :: whenTrue ++
      .fixed " ELSE " :: whenFalse ++ [.fixed " END"]
  | .conditional =>
    .fixed "(" :: condition ++ .fixed " ? " :: whenTrue ++
      .fixed " : " :: whenFalse ++ [.fixed ")"]

/-- The pieces of an expression. -/
def Expression.pieces {C : Type} (s : Phrasing C) (phrase : ChoicePhrase) :
    Expression C → List Piece
  | everything => [.fixed "*"]
  | column c => s.column c
  | numeral text => [.numeral text]
  | aggregate function argument =>
    .fixed function.name :: .fixed "(" :: argument.pieces s phrase ++ [.fixed ")"]
  | choice condition whenTrue whenFalse =>
    phrase.pieces (condition.pieces s) (whenTrue.pieces s phrase) (whenFalse.pieces s phrase)

end ResourceQuery

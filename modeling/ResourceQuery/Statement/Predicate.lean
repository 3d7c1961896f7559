import ResourceQuery.Statement.Build
import ResourceQuery.Statement.Piece

set_option autoImplicit false

/-!
# Statements: predicates

A filter term is compiled to a predicate over the target's columns, with a
marker for each bound value.  The targets share one compiler; what one of them
does in its own way, or not at all, stands in its `Dialog`.
-/

namespace ResourceQuery

/-! ## Operators -/

/-- Comparisons of a column with one value. -/
inductive Comparison where
  | eq
  | ne
  | lt
  | le
  | gt
  | ge
  deriving DecidableEq, Repr, Inhabited

/-- Comparisons of a text column with a text. -/
inductive TextOperator where
  | startsWith
  | endsWith
  | contains
  | lacks
  | like
  deriving DecidableEq, Repr, Inhabited

/-- The word of a text operator. -/
def TextOperator.word : TextOperator → String
  | .startsWith => "sw"
  | .endsWith => "ew"
  | .contains => "w"
  | .lacks => "wo"
  | .like => "like"

/-- What the word of a filter term asks for. -/
inductive Operator where
  | all
  | any
  | negation
  | choice
  | comparison (op : Comparison)
  | membership (negated : Bool)
  | nullity (isNull : Bool)
  | blankness (isBlank : Bool)
  | text (op : TextOperator)
  deriving DecidableEq, Repr, Inhabited

/-- The operators by their words in lower case. -/
def Operator.words : List (String × Operator) :=
  [("and", .all), ("or", .any), ("not", .negation), ("if", .choice),
   ("eq", .comparison .eq), ("ne", .comparison .ne), ("lt", .comparison .lt),
   ("le", .comparison .le), ("gt", .comparison .gt), ("ge", .comparison .ge),
   ("in", .membership false), ("out", .membership true),
   ("n", .nullity true), ("nn", .nullity false),
   ("emp", .blankness true), ("nemp", .blankness false),
   ("sw", .text .startsWith), ("ew", .text .endsWith), ("w", .text .contains),
   ("wo", .text .lacks), ("like", .text .like)]

/-- The operator of a word, without regard to case. -/
def Operator.ofWord? (word : String) : Option Operator :=
  (words.find? fun w => w.1 == Text.lower word).map Prod.snd

/-! ## Predicates -/

/-- The text tests that targets have. -/
inductive TextTest where
  /-- A match with a pattern. -/
  | pattern
  | startsWith
  | endsWith
  | contains
  deriving DecidableEq, Repr, Inhabited

/-- A condition on the columns `C` of a target.  Numbers are those of the
markers of bound values. -/
inductive Predicate (C : Type) where
  | all (parts : List (Predicate C))
  | any (parts : List (Predicate C))
  | negation (part : Predicate C)
  | choice (condition whenTrue whenFalse : Predicate C)
  | comparison (op : Comparison) (column : C) (marker : Nat)
  | membership (negated : Bool) (column : C) (markers : List Nat)
  | nullity (isNull : Bool) (column : C)
  | blankness (isBlank : Bool) (column : C) (marker : Option Nat)
  | text (test : TextTest) (negated : Bool) (column : C) (marker : Nat)
  deriving Repr, Inhabited

namespace Predicate

variable {C : Type}

/-- All of the parts; a single one stands for itself. -/
def allOf : List (Predicate C) → Predicate C
  | [part] => part
  | parts => all parts

/-- Any of the parts; a single one stands for itself. -/
def anyOf : List (Predicate C) → Predicate C
  | [part] => part
  | parts => any parts

end Predicate

/-! ## What targets do in their own way -/

/-- How a target decides between two conditions. -/
inductive Deciding where
  /-- With a conditional expression. -/
  | conditional
  /-- By connectives: the condition and the one, or not the condition and the
  other.  The condition is written twice, and its values are bound twice. -/
  | connectives
  /-- Not at all; the alternatives to it. -/
  | refused (alternatives : String)
  deriving DecidableEq, Repr, Inhabited

/-- What the compiler of predicates asks of a target with columns `C` that
remembers `σ`. -/
structure Dialog (σ C : Type) where
  /-- The name of the target in messages. -/
  backend : String
  /-- The column of a path, and the property that its literals are read by. -/
  resolve : String → Build σ (C × Property)
  deciding : Deciding
  /-- The alternatives to a text operator that the target does not have. -/
  refused : TextOperator → Option String
  /-- The test of a column, typed as the path, against a text. -/
  test : TextOperator → C → String → String → Build σ (Predicate C)
  /-- The negation of a test against a pattern. -/
  unlike : Predicate C → Predicate C
  /-- The column has none of the values with these markers. -/
  outside : C → List Nat → Predicate C
  /-- The column, typed as the path, is empty or is not. -/
  blankness : Bool → C → String → Build σ (Predicate C)

namespace Dialog

variable {σ C : Type} (d : Dialog σ C)

/-- A feature that the target does not have. -/
def unsupported (feature alternatives : String) : Fault :=
  .unsupported d.backend feature alternatives

/-- A comparison with one value.  `null` is tested for, and a bare value with a
`*` is a pattern. -/
def comparison (t : Term) (op : Comparison) : Build σ (Predicate C) := do
  let path ← Build.lookup t.column
  let value ← Build.lookup t.value
  let (column, property) ← d.resolve path
  if value.isNull then
    match op with
    | .eq => return .nullity true column
    | .ne => return .nullity false column
    | _ => throw (.grammar (.invalidValue path "null" "a non-null value"))
  else if value.isPattern ∧ op = .eq then
    d.test .like column path value.token
  else if value.isPattern ∧ op = .ne then
    return d.unlike (← d.test .like column path value.token)
  else
    let bound ← Build.lookup (Value.cast property value)
    let marker ← Build.bind path bound
    return .comparison op column marker

/-- A comparison with several values. -/
def membership (t : Term) (negated : Bool) : Build σ (Predicate C) := do
  let path ← Build.lookup t.column
  let values ← Build.lookup t.values
  let (column, property) ← d.resolve path
  let markers ← values.mapM fun value => do
    let bound ← Build.lookup (Value.cast property value)
    Build.bind path bound
  return if negated then d.outside column markers else .membership false column markers

/-- A test of a column alone. -/
def columnTest (t : Term) (test : C → String → Build σ (Predicate C)) :
    Build σ (Predicate C) := do
  if t.children.length ≠ 1 then throw (t.arity "a column")
  let path ← Build.lookup t.column
  let (column, _) ← d.resolve path
  test column path

/-- A test against one or more texts: any of them, or for `wo` all of them. -/
def textTest (t : Term) (op : TextOperator) : Build σ (Predicate C) := do
  match d.refused op with
  | some alternatives => throw (d.unsupported op.word alternatives)
  | none =>
    let path ← Build.lookup t.column
    let values ← Build.lookup t.values
    let (column, _) ← d.resolve path
    let parts ← values.mapM fun value => do
      let text ← Build.lookup (value.literal path)
      d.test op column path text
    return if op = .lacks then .allOf parts else .anyOf parts

/-- A filter term that holds no other terms. -/
def atom (t : Term) : Operator → Build σ (Predicate C)
  | .comparison op => d.comparison t op
  | .membership negated => d.membership t negated
  | .nullity isNull => d.columnTest t fun column _ => return .nullity isNull column
  | .blankness isBlank => d.columnTest t (d.blankness isBlank)
  | .text op => d.textTest t op
  | .all | .any | .negation | .choice => throw (.grammar (.unknownTerm t.render))

mutual

/-- The predicate of a filter term. -/
def predicate : Term → Build σ (Predicate C)
  | .node token quote children =>
    match Operator.ofWord? token with
    | none => throw (.grammar (.unknownTerm (Term.node token quote children).render))
    | some .all =>
      match children with
      | [] => throw (.grammar (.arity token "at least one condition"))
      | c :: cs => return .allOf (← predicates (c :: cs))
    | some .any =>
      match children with
      | [] => throw (.grammar (.arity token "at least one condition"))
      | c :: cs => return .anyOf (← predicates (c :: cs))
    | some .negation =>
      match children with
      | [inner] => return .negation (← predicate inner)
      | _ => throw (.grammar (.arity token "one condition"))
    | some .choice =>
      match d.deciding, children with
      | .refused alternatives, _ => throw (d.unsupported "if" alternatives)
      | .conditional, [condition, whenTrue, whenFalse] => do
        let c ← predicate condition
        let t ← predicate whenTrue
        let f ← predicate whenFalse
        return .choice c t f
      | .connectives, [condition, whenTrue, whenFalse] => do
        let c ← predicate condition
        let t ← predicate whenTrue
        let again ← predicate condition
        let f ← predicate whenFalse
        return .any [.all [c, t], .all [.negation again, f]]
      | _, _ => throw (.grammar (.arity token "a condition and two results"))
    | some op => d.atom (.node token quote children) op

/-- The predicates of filter terms, from left to right. -/
def predicates : List Term → Build σ (List (Predicate C))
  | [] => return []
  | t :: ts => do
    let first ← predicate t
    let rest ← predicates ts
    return first :: rest

end

end Dialog

/-! ## Spelling -/

/-- How a target phrases its predicates. -/
structure Phrasing (C : Type) where
  column : C → List Piece
  /-- The sign of inequality. -/
  notEqual : String
  nullity : Bool → List Piece → List Piece
  blankness : Bool → List Piece → Option Nat → List Piece
  text : TextTest → Bool → List Piece → Nat → List Piece

/-- The sign of a comparison. -/
def Comparison.sign (notEqual : String) : Comparison → String
  | .eq => "="
  | .ne => notEqual
  | .lt => "<"
  | .le => "<="
  | .gt => ">"
  | .ge => ">="

namespace Predicate

variable {C : Type} (s : Phrasing C)

/-- Pieces in parentheses. -/
def enclosed (pieces : List Piece) : List Piece :=
  .fixed "(" :: pieces ++ [.fixed ")"]

mutual

/-- The pieces of a predicate. -/
def pieces : Predicate C → List Piece
  | all parts => enclosed (Piece.join " AND " (piecesAll parts))
  | any parts => enclosed (Piece.join " OR " (piecesAll parts))
  | negation part => .fixed "NOT (" :: pieces part ++ [.fixed ")"]
  | choice c t f =>
    enclosed (pieces c ++ .fixed " ? " :: pieces t ++ .fixed " : " :: pieces f)
  | comparison op column marker =>
    s.column column ++ [.fixed s!" {op.sign s.notEqual} ", .marker marker]
  | membership negated column markers =>
    s.column column ++ .fixed (if negated then " NOT IN (" else " IN (") ::
      Piece.join ", " (markers.map fun m => [.marker m]) ++ [.fixed ")"]
  | nullity isNull column => s.nullity isNull (s.column column)
  | blankness isBlank column marker => s.blankness isBlank (s.column column) marker
  | text test negated column marker => s.text test negated (s.column column) marker

/-- The pieces of each predicate. -/
def piecesAll : List (Predicate C) → List (List Piece)
  | [] => []
  | p :: ps => pieces p :: piecesAll ps

end

/-- The pieces of predicates that hold together. -/
def conjunction (ps : List (Predicate C)) : List Piece :=
  Piece.join " AND " (piecesAll s ps)

end Predicate
end ResourceQuery

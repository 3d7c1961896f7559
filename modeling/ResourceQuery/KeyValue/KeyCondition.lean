import ResourceQuery.KeyValue.Attribute

set_option autoImplicit false

/-!
# Key-value requests: key conditions

An equation on the first column of the primary or a secondary index fixes the
part of the table that is read; a comparison of the second column narrows it.
-/

namespace ResourceQuery.KeyValue

/-- The operators that a sort key takes in a key condition. -/
def sortKeyOperators : List Operator :=
  [.comparison .eq, .comparison .lt, .comparison .le, .comparison .gt, .comparison .ge,
   .text .startsWith]

/-- The term compares the property with one literal, by one of the operators;
neither `null` nor a pattern will do. -/
def fixesKey (c : Collection) (p : Property) (operators : List Operator) (t : Term) : Bool :=
  !t.isQuoted && (Operator.ofWord? t.token).any (operators.contains ·) &&
    match t.column, t.value with
    | .ok path, .ok value =>
      (c.property? path).any (fun q => q.name = p.name) &&
        value.isLeaf && !value.isNull && !value.isPattern
    | _, _ => false

/-- The predicate of a term that compares a key. -/
def keyPart (d : Dialog Names Column) (t : Term) : Build Names (Predicate Column) := do
  let path ← Build.lookup t.column
  let value ← Build.lookup t.value
  let (column, property) ← d.resolve path
  match Operator.ofWord? t.token with
  | some (.comparison op) =>
    let bound ← Build.lookup (Value.cast property value)
    let marker ← Build.bind path bound
    return .comparison op column marker
  | _ =>
    let text ← Build.lookup (value.literal path)
    let marker ← Build.bind path (.text text)
    return .text .startsWith false column marker

/-- An index chosen for a key condition: its sort key, the condition, and the
positions of the filter terms that the condition is made of. -/
structure KeyPlan where
  index : Index
  sortKey : Option Property
  condition : List (Predicate Column)
  consumed : List Nat
  deriving Repr, Inhabited

/-- The position of the first term that satisfies the test, with the term. -/
def firstWhere (test : Nat → Term → Bool) (terms : List Term) : Option (Term × Nat) :=
  terms.zipIdx.find? fun (t, i) => test i t

/-- The indexes that may give a key condition: the primary ones, then the
secondary ones. -/
def candidates (c : Collection) : List Index :=
  c.indexes.filter (·.kind = .primary) ++ c.indexes.filter (·.kind = .secondary)

/-- The key condition by one index whose first column the term at `hashAt`
fixes.  A second column is taken in if a term compares it. -/
def chooseKey (d : Dialog Names Column) (c : Collection) (filters : List Term) (index : Index)
    (sortKey : Option Property) (hash : Term) (hashAt : Nat) : Build Names KeyPlan := do
  let first ← keyPart d hash
  let range? := sortKey.bind fun p =>
    firstWhere (fun i t => i ≠ hashAt && fixesKey c p sortKeyOperators t) filters
  match range? with
  | none => return ⟨index, sortKey, [first], [hashAt]⟩
  | some (range, rangeAt) =>
    let second ← keyPart d range
    return ⟨index, sortKey, [first, second], [hashAt, rangeAt]⟩

/-- The key condition by the first index whose first column is fixed. -/
def keyCondition (d : Dialog Names Column) (c : Collection) (filters : List Term) :
    List Index → Build Names (Option KeyPlan)
  | [] => return none
  | index :: indexes => do
    let properties ← Build.lookup (c.keyProperties index)
    match properties with
    | [] => keyCondition d c filters indexes
    | hash :: others =>
      match firstWhere (fun _ t => fixesKey c hash [.comparison .eq] t) filters with
      | none => keyCondition d c filters indexes
      | some (t, i) => return some (← chooseKey d c filters index others.head? t i)

end ResourceQuery.KeyValue

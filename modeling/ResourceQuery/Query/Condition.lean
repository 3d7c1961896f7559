import ResourceQuery.Catalog
import ResourceQuery.Query.CompositeKey
import ResourceQuery.Term.Store

set_option autoImplicit false

/-!
# Query: filters

A term that becomes part of the filter is brought to a normal form.  Every
`_key(index,key,…)` gives way to comparisons of the columns of the index, `eq`
with several values becomes `in`, and a conjunction at the root is taken apart,
because the terms of a filter hold together anyway.
-/

namespace ResourceQuery.Condition

/-! ## Keys -/

/-- The wrong number of arguments for a key. -/
def keyArity : Fault := .grammar (.arity "_key" "an index name and at least one key")

/-- A component of a key as a literal.  A component that spells `null` is a text
and not the keyword, so it is quoted. -/
def valueLeaf (quote : Option Quote) (value : String) : Term :=
  .leaf value (quote.or (if Text.sameWord value "null" then some .double else none))

/-- The comparison of a column with one value. -/
def equation (column : String) (value : Term) : Term := .call "eq" [.word column, value]

/-- The term that holds of the rows with the given keys. -/
def keyTerm (columns : List String) (keys : List (List String × Option Quote)) : Term :=
  match columns with
  | [column] =>
    match keys.flatMap fun (parts, quote) => parts.map (valueLeaf quote) with
    | [value] => equation column value
    | values => .call "in" (.word column :: values)
  | columns =>
    match keys.map fun (parts, quote) =>
        Term.call "and" (List.zipWith equation columns (parts.map (valueLeaf quote))) with
    | [branch] => branch
    | branches => .call "or" branches

/-- The comparisons that a key term stands for. -/
def keyComparisons (c : Collection) (t : Term) : Except Fault Term :=
  match t.children with
  | index :: key :: keys => do
    let name := index.token
    let found ← c.index name
    if !found.isUnique then throw (.grammar (.nonUniqueIndex name))
    let properties ← c.keyProperties found
    let columns := properties.map Property.name
    let decoded ← (key :: keys).mapM fun k => do
      let parts ← CompositeKey.decode name k.token columns.length
      return (parts, k.quote)
    return keyTerm columns decoded
  | _ => throw keyArity

/-- Resolves the key terms at the ids, one after the other.  `root` is the root
of the term they stand in; the result is its root afterwards. -/
def resolveKeysAt (c : Collection) : List WordId → WordId → Store → Except Fault WordId × Store
  | [], root, s => (.ok root, s)
  | id :: ids, root, s =>
    match keyComparisons c (s.read id) with
    | .error fault => (.error fault, s)
    | .ok expansion =>
      let (fresh, s) := s.plant expansion
      if id = root then resolveKeysAt c ids fresh s
      else resolveKeysAt c ids root (s.replace id fresh).2

/-- Resolves every key term under `root`. -/
def resolveKeys (c : Collection) (root : WordId) (s : Store) : Except Fault WordId × Store :=
  resolveKeysAt c (s.findAll root "_key") root s

/-! ## Several values -/

/-- Turns every `eq` with several values under `root` into `in`. -/
def widenEquations (root : WordId) (s : Store) : Store :=
  (s.findAll root "eq").foldl
    (fun s id => if 2 < (s.children id).length then s.setToken id "in" else s) s

/-! ## Conjunctions -/

/-- Takes a conjunction apart, down to `depth`: its conjuncts are detached, and
those that are conjunctions are taken apart in their turn. -/
def conjuncts : Nat → Store → WordId → List WordId × Store
  | 0, s, id => ([id], s)
  | depth + 1, s, id =>
    if s.hasToken id "and" then
      (s.children id).foldl
        (fun (ids, s) child =>
          let (more, s) := conjuncts depth (s.detach child) child
          (ids ++ more, s))
        ([], s)
    else ([id], s)

/-- The terms that a term contributes to the filter. -/
def claim (c : Collection) (s : Store) (id : WordId) : Except Fault (List WordId) × Store :=
  match resolveKeys c id s with
  | (.error fault, s) => (.error fault, s)
  | (.ok root, s) =>
    let s := widenEquations root s
    let (ids, s) := conjuncts (s.size + 1) s root
    (.ok ids, s)

end ResourceQuery.Condition

import ResourceQuery.Fragment.Planting
import ResourceQuery.Fragment.Split
import ResourceQuery.Query.ColumnList
import ResourceQuery.Query.Condition
import ResourceQuery.Query.Paging
import ResourceQuery.Query.Selection
import ResourceQuery.Query.Vocabulary

set_option autoImplicit false

/-!
# Queries

A query against one collection, built term by term.  Each term goes to the
clause that claims its word; a clause may bring the term into its normal form
and hand parts of it to other clauses.  A term at fault leaves the query with
whatever had been claimed and stored before the fault was met.
-/

namespace ResourceQuery

/-- A query under construction: the store of its words and, for each clause, the
ids of its terms. -/
structure Query where
  collection : Collection
  store : Store
  filter : List WordId
  page : Paging
  order : List WordId
  group : List WordId
  select : List WordId
  deriving DecidableEq, Repr, Inhabited

namespace Query

/-- A query without terms. -/
def new (collection : Collection) : Query := ⟨collection, .empty, [], .none, [], [], []⟩

/-- The ids of the terms of a clause. -/
def clause (q : Query) : Clause → List WordId
  | .filter => q.filter
  | .page => q.page.terms
  | .order => q.order
  | .group => q.group
  | .select => q.select

/-- The terms of a clause. -/
def terms (q : Query) (kind : Clause) : List Term := (q.clause kind).map q.store.read

/-! ## Claiming terms -/

/-- The word makes `eq(word,value)` a term of its own: it belongs to a clause
other than the filter, or asks for a row by its key. -/
def isParameter (word : String) : Bool :=
  match Clause.owner? word with
  | some .filter => Text.sameWord word "_key"
  | some _ => true
  | none => false

/-- `eq(limit,5)`, which `limit=5` is read as, becomes `limit(5)`. -/
def liftParameter (s : Store) (id : WordId) : WordId × Store :=
  match s.children id with
  | key :: values =>
    if s.hasToken id "eq" && s.isLeaf key && !s.isQuoted key && isParameter (s.token key) then
      (s.detachAll values).call (s.token key) values
    else (id, s)
  | [] => (id, s)

/-- Gives a term to the filter. -/
def claimFilter (q : Query) (id : WordId) : Except Fault Unit × Query :=
  match Condition.claim q.collection q.store id with
  | (.ok ids, s) => (.ok (), { q with store := s, filter := q.filter ++ ids })
  | (.error fault, s) => (.error fault, { q with store := s })

/-- Gives a term to the paging. -/
def claimPage (q : Query) (id : WordId) : Except Fault Unit × Query :=
  match Paging.setting (q.store.read id) with
  | .ok setting => (.ok (), { q with page := q.page.apply id setting })
  | .error fault => (.error fault, q)

/-- Gives a term to the ordering. -/
def claimOrder (q : Query) (id : WordId) : Except Fault Unit × Query :=
  match ColumnList.checkOrder (q.store.read id) with
  | .ok () => (.ok (), { q with order := q.order ++ [id] })
  | .error fault => (.error fault, q)

/-- Gives a term to the grouping. -/
def claimGroup (q : Query) (id : WordId) : Except Fault Unit × Query :=
  match ColumnList.checkGroup (q.store.read id) with
  | .ok () => (.ok (), { q with group := q.group ++ [id] })
  | .error fault => (.error fault, q)

/-- Gives a term to the selection, and what the selection does not keep to the
grouping or the filter. -/
def claimSelect (q : Query) (id : WordId) : Except Fault Unit × Query :=
  match Selection.claim q.store id with
  | (.error fault, s) => (.error fault, { q with store := s })
  | (.ok claim, s) =>
    let q := { q with store := s, select := q.select ++ claim.terms }
    match claim.grouping, claim.filter with
    | some grouping, _ => q.claimGroup grouping
    | none, some filter => q.claimFilter filter
    | none, none => (.ok (), q)

/-- Gives a term to the clause. -/
def claim (q : Query) (kind : Clause) (id : WordId) : Except Fault Unit × Query :=
  match kind with
  | .filter => q.claimFilter id
  | .page => q.claimPage id
  | .order => q.claimOrder id
  | .group => q.claimGroup id
  | .select => q.claimSelect id

/-- Adds the term at an id of the query's store. -/
def addTerm (q : Query) (id : WordId) : Except Fault Unit × Query :=
  let (id, s) := liftParameter q.store id
  let q := { q with store := s }
  match (Clause.owner? (s.token id)).filter fun _ => !s.isQuoted id with
  | some kind => q.claim kind id
  | none => (.error (.grammar (.unknownTerm (s.read id).render)), q)

/-- Adds the term that a fragment writes. -/
def add (q : Query) (fragment : String) : Except Fault Unit × Query :=
  match q.store.parse fragment with
  | (.error fault, s) => (.error fault, { q with store := s })
  | (.ok id, s) => { q with store := s }.addTerm id

/-- Adds a term that is not yet in the store. -/
def plant (q : Query) (t : Term) : Except Fault Unit × Query :=
  let (id, s) := q.store.plant t
  { q with store := s }.addTerm id

/-- Adds the terms of the fragments, up to the first fault. -/
def addAll (q : Query) : List String → Except Fault Query
  | [] => .ok q
  | fragment :: fragments =>
    match q.add fragment with
    | (.ok (), q) => q.addAll fragments
    | (.error fault, _) => .error fault

/-- The query that a query string writes. -/
def ofString (collection : Collection) (query : String) : Except Fault Query :=
  (new collection).addAll (Fragment.split query)

/-- The query in its normal form as a query string. -/
def render (q : Query) : String :=
  "&".intercalate (Clause.priority.flatMap fun kind => (q.terms kind).map Term.render)

end Query
end ResourceQuery

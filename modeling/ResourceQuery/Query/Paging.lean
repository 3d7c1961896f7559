import ResourceQuery.Config
import ResourceQuery.Fault
import ResourceQuery.Number.Numeral
import ResourceQuery.Term.Printer
import ResourceQuery.Term.Store

set_option autoImplicit false

/-!
# Query: paging

`offset`, `limit`, `page` or `pageNum`, `pageSize` and `after`.  A later term of
one kind overrides an earlier one.
-/

namespace ResourceQuery

/-- The rows that a query asks for. -/
structure Window where
  offset : UInt64
  limit : UInt64
  deriving DecidableEq, Repr, Inhabited

/-- The paging terms of a query and what they set. -/
structure Paging where
  terms : List WordId
  offset : Option UInt64
  limit : Option UInt64
  page : Option UInt64
  pageSize : Option UInt64
  after : Option WordId
  deriving DecidableEq, Repr, Inhabited

namespace Paging

/-- No paging. -/
def none : Paging := ⟨[], .none, .none, .none, .none, .none⟩

/-- The product, or the largest word if it is larger. -/
def boundedProduct (a b : UInt64) : UInt64 :=
  UInt64.ofNat (min (a.toNat * b.toNat) (Number.wordCount 64 - 1))

/-- The rows that are asked for.  `offset` wins over `page`, `limit` over
`pageSize`. -/
def window (p : Paging) (config : Config) : Window :=
  let limit := min ((p.limit.or p.pageSize).getD config.defaultPageSize) config.maxPageSize
  let offset := match p.offset, p.page with
    | some offset, _ => offset
    | .none, some page => boundedProduct (page - 1) limit
    | .none, .none => 0
  ⟨offset, limit⟩

/-! ## Reading paging terms -/

/-- What one paging term sets. -/
inductive Setting where
  | offset (value : UInt64)
  | limit (value : UInt64)
  | page (value : UInt64)
  | pageSize (value : UInt64)
  | after
  deriving DecidableEq, Repr, Inhabited

/-- The only argument of a paging term, a number that is at least `minimum`. -/
def number (t : Term) (minimum : Nat) : Except Fault UInt64 :=
  match t.children with
  | [value] =>
    match (Number.word? (Text.trim value.token)).filter (minimum ≤ ·) with
    | some n => .ok (UInt64.ofNat n)
    | .none => .error (.grammar (.invalidPaging t.token value.token))
  | _ => .error (.grammar (.invalidPaging t.token t.render))

/-- What a paging term sets. -/
def setting (t : Term) : Except Fault Setting :=
  match Text.lower t.token with
  | "offset" => Setting.offset <$> number t 0
  | "limit" => Setting.limit <$> number t 0
  | "page" => Setting.page <$> number t 1
  | "pagenum" => Setting.page <$> number t 1
  | "pagesize" => Setting.pageSize <$> number t 1
  | _ =>
    if t.isLeaf then .error (.grammar (.arity t.token "at least one key value"))
    else .ok .after

/-- Takes up a paging term. -/
def apply (p : Paging) (id : WordId) (setting : Setting) : Paging :=
  let p := match setting with
    | .offset value => { p with offset := some value }
    | .limit value => { p with limit := some value }
    | .page value => { p with page := some value }
    | .pageSize value => { p with pageSize := some value }
    | .after => { p with after := some id }
  { p with terms := p.terms ++ [id] }

end Paging
end ResourceQuery

import ResourceQuery.Proofs.Catalog
import ResourceQuery.Proofs.ColumnPath
import ResourceQuery.Proofs.Query.KeyLookup
import ResourceQuery.Proofs.Sql.Filters

set_option autoImplicit false

/-!
# SQL: rows by their keys

The statement of a query that is a key term with one key.  Each column of the
index is compared with its component of the key by `=`, except that a component
with a `*` is taken for a pattern.

The plan of a lookup is computed from the components of the key, one condition
for each (`predicates_components`), and then written out.  No property name may
have a dot here, as the name would be taken for a path.
-/

namespace ResourceQuery

/-! ## Columns by their names -/

namespace Collection

variable {c : Collection} {p : Property}

/-- The property that the name of a property leads to. -/
def named (c : Collection) (p : Property) : Property := (c.property? p.name).getD p

theorem named_eq {found : Property} (h : c.property p.name = .ok found) : c.named p = found := by
  unfold property at h
  rw [named]
  cases hname : c.property? p.name with
  | none =>
    rw [hname] at h
    cases h
  | some p' =>
    rw [hname] at h
    cases h
    rfl

/-- With distinct names, the name of a property leads to it. -/
theorem named_of_mem (h : c.properties.Pairwise fun p p' => Text.sameWord p.name p'.name = false)
    (hp : p ∈ c.properties) : c.named p = p := by
  have hfirst : ∀ {ps : List Property},
      ps.Pairwise (fun p p' => Text.sameWord p.name p'.name = false) → p ∈ ps →
      ps.find? (fun p' => Text.sameWord p'.name p.name) = some p := by
    intro ps hps hmem
    induction ps with
    | nil => cases hmem
    | cons first rest ih =>
      obtain ⟨hfirst, hrest⟩ := List.pairwise_cons.1 hps
      rcases List.mem_cons.1 hmem with rfl | hmem
      · exact List.find?_cons_of_pos (Text.sameWord_refl _)
      · rw [List.find?_cons_of_neg (by rw [hfirst p hmem]; decide), ih hrest hmem]
  rw [named, property?, hfirst h hp]
  rfl

end Collection

namespace Condition

/-- A component with a `*` is a pattern. -/
theorem isPattern_valueLeaf (part : String) :
    (valueLeaf none part).isPattern = part.toList.contains '*' := by
  unfold valueLeaf
  cases hnull : Text.sameWord part "null" with
  | false => rfl
  | true =>
    -- such a component is quoted, and the word has no star
    have hlower : part.toList.map Char.toLower = ['n', 'u', 'l', 'l'] := by
      have h := congrArg String.toList ((Text.sameWord_iff _ _).1 hnull)
      rw [Text.lower, String.toList_ofList] at h
      rw [h]
      decide
    have hstar : '*' ∉ part.toList := by
      intro hmem
      have hlowered := List.mem_map_of_mem (f := Char.toLower) hmem
      rw [hlower] at hlowered
      exact absurd hlowered (by decide)
    rw [List.contains_eq_mem, decide_eq_false hstar]
    rfl

/-- A component is never the keyword. -/
theorem isNull_valueLeaf (part : String) : (valueLeaf none part).isNull = false := by
  unfold valueLeaf
  cases hnull : Text.sameWord part "null" with
  | true => rfl
  | false =>
    rw [Term.isNull, Term.hasToken]
    exact hnull

end Condition

namespace Sql

open FilterText (textAll_append textAll_cons textAll_join textAll_singleton)

/-! ## Conditions on components -/

/-- A component of a key, and the property that it is compared with. -/
structure Component where
  property : Property
  part : String
  deriving DecidableEq, Repr, Inhabited

namespace Component

/-- The component is taken for a pattern. -/
def isPattern (x : Component) : Bool := x.part.toList.contains '*'

/-- The value that is bound for the component. -/
def value (x : Component) : Except Fault Value :=
  if x.isPattern then .ok (.text (Pattern.like .like x.part)) else Value.parse x.property x.part

/-- The condition on the component, with the number of its marker. -/
def predicate (x : Component) (marker : Nat) : Predicate Column :=
  if x.isPattern then .text .pattern false ⟨0, x.property.columnName⟩ marker
  else .comparison .eq ⟨0, x.property.columnName⟩ marker

/-- The column has the value of the marker. -/
def equality (d : Dialect) (style : MarkerStyle) (x : Component) (marker : Nat) : String :=
  "t0." ++ d.quote x.property.columnName ++ " = " ++ d.marker style marker

/-- The condition as it is written. -/
def condition (d : Dialect) (style : MarkerStyle) (x : Component) (marker : Nat) : String :=
  if x.isPattern then
    "t0." ++ d.quote x.property.columnName ++ " LIKE " ++ d.marker style marker ++ escapeSuffix d
  else x.equality d style marker

/-- The pieces of the condition on a component have the text of it. -/
theorem text_predicate (d : Dialect) (style : MarkerStyle) (x : Component) (marker : Nat) :
    Piece.textAll (d.spelling style) ((x.predicate marker).pieces (phrasing d)) =
      x.condition d style marker := by
  have hcolumn : Piece.textAll (d.spelling style) (Column.pieces ⟨0, x.property.columnName⟩) =
      "t0." ++ d.quote x.property.columnName := by
    have hlead : "t" ++ toString 0 ++ "." = "t0." := by decide
    rw [← hlead, Column.pieces, textAll_cons, textAll_cons, textAll_singleton,
      ← String.append_assoc]
    rfl
  unfold predicate condition
  cases x.isPattern with
  | true =>
    rw [if_pos rfl, if_pos rfl, Predicate.pieces, phrasing]
    dsimp only
    rw [textAll_append, hcolumn, textAll_cons, textAll_cons, textAll_singleton]
    simp only [String.append_assoc]
    rfl
  | false =>
    rw [if_neg (by decide), if_neg (by decide), Predicate.pieces, phrasing]
    dsimp only
    rw [textAll_append, hcolumn, textAll_cons, textAll_singleton, equality]
    exact String.append_assoc.symm

end Component

/-- The components of a key, in the order of the index. -/
def components (c : Collection) (ps : List Property) (parts : List String) : List Component :=
  List.zipWith Component.mk (ps.map c.named) parts

theorem components_cons (c : Collection) (p : Property) (ps : List Property) (part : String)
    (parts : List String) :
    components c (p :: ps) (part :: parts) = ⟨c.named p, part⟩ :: components c ps parts := rfl

theorem components_ne_nil (c : Collection) {ps : List Property} {parts : List String}
    (hlength : parts.length = ps.length) (hne : ps ≠ []) : components c ps parts ≠ [] := by
  cases ps with
  | nil => exact absurd rfl hne
  | cons p ps =>
    cases parts with
    | nil => cases hlength
    | cons part parts =>
      rw [components_cons]
      exact List.cons_ne_nil _ _

variable {catalog : Catalog} {c : Collection} {limit : Nat}

/-- A name without a dot is a column of the root table. -/
theorem resolve_plain {name : String} {pr pr' : Progress Scope} {column : Column}
    {property : Property} (hdot : '.' ∉ name.toList)
    (h : (dialog catalog c limit).resolve name pr = .ok ((column, property), pr')) :
    c.property name = .ok property ∧ column = ⟨0, property.columnName⟩ ∧ pr' = pr := by
  have h : resolve catalog c limit name pr = .ok ((column, property), pr') := h
  unfold resolve at h
  obtain ⟨resolved, hfollow, h⟩ := Build.lookup_bind_ok_iff.1 h
  obtain ⟨hsteps, hproperty⟩ := ColumnPath.follow_plain hdot hfollow
  rw [hsteps] at h
  cases h
  exact ⟨hproperty, rfl, rfl⟩

/-- A comparison of a property with a component is about the column that its name leads to. -/
theorem addresses_equation {p : Property} (hdot : '.' ∉ p.name.toList) {value : Term}
    {pr pr' : Progress Scope} {path : String} {column : Column} {property : Property}
    (h : (dialog catalog c limit).Addresses (Condition.equation p.name value) pr path column
      property pr') :
    path = p.name ∧ c.named p = property ∧ column = ⟨0, property.columnName⟩ ∧ pr' = pr := by
  obtain rfl : p.name = path := Except.ok.inj h.path_eq
  obtain ⟨hproperty, hcolumn, hprogress⟩ := resolve_plain hdot h.resolves
  exact ⟨rfl, Collection.named_eq hproperty, hcolumn, hprogress⟩

/-- One component of a key: the value that is bound, and the condition. -/
theorem atom_component {p : Property} (hdot : '.' ∉ p.name.toList) {part : String}
    {pr pr' : Progress Scope} {found : Predicate Column}
    (h : (dialog catalog c limit).AtomRun
      (Condition.equation p.name (Condition.valueLeaf none part)) pr (.comparison .eq) found pr') :
    ∃ value, Component.value ⟨c.named p, part⟩ = .ok value ∧
      pr' = { pr with values := pr.values ++ [(p.name, value)] } ∧
      found = Component.predicate ⟨c.named p, part⟩ (pr.values.length + 1) := by
  have hnotNull := Condition.isNull_valueLeaf part
  have hstar := Condition.isPattern_valueLeaf part
  cases h with
  | isNull ha hv hnull =>
    cases hv
    rw [hnotNull] at hnull
    cases hnull
  | like ha hv _ hpattern htest =>
    cases hv
    obtain ⟨rfl, rfl, rfl, rfl⟩ := addresses_equation hdot ha
    obtain ⟨marker, rfl, hbind⟩ := test_ok htest
    obtain ⟨rfl, rfl⟩ := Build.bind_value_ok_iff.1 hbind
    have hpattern : Component.isPattern ⟨c.named p, part⟩ = true := hstar.symm.trans hpattern
    refine ⟨_, if_pos hpattern, rfl, ?_⟩
    rw [Component.predicate, if_pos hpattern]
    rfl
  | compared _ ha hv hnull hpattern hbind =>
    cases hv
    obtain ⟨rfl, rfl, rfl, rfl⟩ := addresses_equation hdot ha
    obtain ⟨value, hcast, hbind⟩ := Build.lookup_bind_ok_iff.1 hbind
    obtain ⟨rfl, rfl⟩ := Build.bind_value_ok_iff.1 hbind
    have hplain : ¬Component.isPattern ⟨c.named p, part⟩ = true :=
      fun h => (hpattern (hstar.trans h)).1 rfl
    have hparsed : Value.cast (c.named p) (Condition.valueLeaf none part) =
        Value.parse (c.named p) part := by
      rw [Value.cast, hnotNull]
      rfl
    refine ⟨value, ?_, rfl, ?_⟩
    · rw [Component.value, if_neg hplain, ← hparsed, hcast]
    · rw [Component.predicate, if_neg hplain]

/-- The condition on one component, as the compiler of predicates gives it. -/
theorem predicate_component {p : Property} (hdot : '.' ∉ p.name.toList) {part : String}
    {pr pr' : Progress Scope} {found : Predicate Column}
    (h : (dialog catalog c limit).predicate
      (Condition.equation p.name (Condition.valueLeaf none part)) pr = .ok (found, pr')) :
    ∃ value, Component.value ⟨c.named p, part⟩ = .ok value ∧
      pr' = { pr with values := pr.values ++ [(p.name, value)] } ∧
      found = Component.predicate ⟨c.named p, part⟩ (pr.values.length + 1) := by
  have hword : ∀ {op}, Operator.ofWord? "eq" = some op → .comparison .eq = op := by
    intro op hop
    have heq : Operator.ofWord? "eq" = some (.comparison .eq) := by decide
    exact Option.some.inj (heq.symm.trans hop)
  have hrun := Dialog.run_of_predicate h
  unfold Condition.equation Term.call at hrun
  cases hrun with
  | all hop => cases hword hop
  | any hop => cases hword hop
  | atom hop hatom =>
    obtain rfl := hword hop
    exact atom_component hdot hatom

/-- All components of a key: the values are bound in the order of the
conditions, which have their markers. -/
theorem predicates_components {ps : List Property} (hdot : ∀ p ∈ ps, '.' ∉ p.name.toList)
    {parts : List String} {pr pr' : Progress Scope} {found : List (Predicate Column)}
    (h : Build.Each (dialog catalog c limit).predicate (Condition.equations ps parts none) pr
      found pr') :
    ∃ values, (components c ps parts).mapM Component.value = .ok values ∧
      pr' = { pr with values := pr.values ++ (ps.map Property.name).zip values } ∧
      found = (components c ps parts).mapIdx
        fun i x => x.predicate (pr.values.length + 1 + i) := by
  induction ps generalizing parts pr found with
  | nil =>
    cases h
    exact ⟨[], rfl, by rw [List.map_nil, List.zip_nil_left, List.append_nil], rfl⟩
  | cons p ps ih =>
    cases parts with
    | nil =>
      cases h
      exact ⟨[], rfl, by rw [List.zip_nil_right, List.append_nil], rfl⟩
    | cons part parts =>
      cases h with
      | cons hx hxs =>
        obtain ⟨value, hvalue, rfl, rfl⟩ := predicate_component (hdot p List.mem_cons_self) hx
        obtain ⟨values, hvalues, rfl, rfl⟩ :=
          ih (fun p hp => hdot p (List.mem_cons_of_mem _ hp)) hxs
        refine ⟨value :: values, mapM_cons_ok_iff.2 ⟨value, values, hvalue, hvalues, rfl⟩, ?_, ?_⟩
        · rw [List.map_cons, List.zip_cons_cons, List.append_assoc, List.singleton_append]
        · -- the markers go on from the value that was bound
          have hnext : ∀ i, (pr.values ++ [(p.name, value)]).length + 1 + i =
              pr.values.length + 1 + (i + 1) := by
            intro i
            rw [List.length_append, List.length_singleton]
            omega
          dsimp only
          simp only [hnext]
          rw [components_cons, List.mapIdx_cons, Nat.add_zero]

/-! ## The statement -/

/-- The plan of a request for nothing but a key. -/
def lookupPlan (c : Collection) (config : Config) (ps : List Property) (parts : List String)
    (values : List Value) : Plan where
  distinct := false
  items := []
  table := c.tableName
  joins := []
  filters := (components c ps parts).mapIdx fun i x => x.predicate (i + 1)
  groups := []
  orders := []
  rowCount := false
  window := ⟨0, min config.defaultPageSize config.maxPageSize⟩
  values := (ps.map Property.name).zip values

/-- A request for nothing but a key has this plan. -/
theorem plan_lookup {config : Config} {ps : List Property} {parts : List String} {p : Plan}
    (hdot : ∀ p ∈ ps, '.' ∉ p.name.toList)
    (h : plan catalog config ⟨c, Condition.equations ps parts none, .none, none, [], [], [], [],
      false, false⟩ = .ok p) :
    ∃ values, (components c ps parts).mapM Component.value = .ok values ∧
      p = lookupPlan c config ps parts values := by
  unfold plan at h
  dsimp only [Option.isSome] at h
  rw [if_neg (by decide)] at h
  obtain ⟨⟨⟨items, filters, groups, os⟩, progress⟩, hparts, h⟩ := bind_eq_ok_iff.1 h
  obtain rfl := pure_eq_ok_iff.1 h
  unfold Sql.parts at hparts
  obtain ⟨plain, p₁, hplain, hparts⟩ := Build.bind_ok_iff.1 hparts
  cases hplain
  obtain ⟨computed, p₂, hcomputed, hparts⟩ := Build.bind_ok_iff.1 hparts
  cases hcomputed
  obtain ⟨filters', p₃, hfilters, hparts⟩ := Build.bind_ok_iff.1 hparts
  cases hparts
  obtain ⟨values, hvalues, rfl, rfl⟩ :=
    predicates_components hdot (Dialog.predicates_ok_iff.1 hfilters)
  refine ⟨values, hvalues, ?_⟩
  unfold lookupPlan
  simp only [Nat.add_comm]
  rfl

/-- The end of a statement for the first rows in no order. -/
def firstRows (d : Dialect) (limit : UInt64) : String :=
  match d with
  | .sqlserver => "\nORDER BY (SELECT NULL)\nOFFSET 0 ROWS FETCH NEXT " ++
      toString limit.toNat ++ " ROWS ONLY"
  | _ => "\nLIMIT " ++ toString limit.toNat

section Text

variable (c : Collection) (config : Config) (d : Dialect) (ps : List Property)
  (parts : List String) (values : List Value)

/-- A lookup selects all columns of the root table. -/
theorem text_front :
    Piece.textAll (d.spelling config.markerStyle) ((lookupPlan c config ps parts values).front d) =
      "SELECT t0.*\nFROM " ++ d.quote c.tableName ++ " t0" := by
  have hselect : String.join ["SELECT ", "t" ++ toString 0, ".*", "\nFROM "] =
      "SELECT t0.*\nFROM " := by decide
  have hroot : String.join [" ", "t" ++ toString 0] = " t0" := by decide
  have hpieces : (lookupPlan c config ps parts values).front d =
      [.fixed "SELECT ", .table 0, .fixed ".*", .fixed "\nFROM "] ++
        .name c.tableName :: [.fixed " ", .table 0] := rfl
  rw [hpieces, textAll_append, textAll_cons _ (.name _), ← hselect, ← hroot, String.append_assoc]
  rfl

/-- The conditions on the components are joined by `AND`. -/
theorem text_where (h : components c ps parts ≠ []) :
    Piece.textAll (d.spelling config.markerStyle) (Piece.clause "\nWHERE " " AND "
      (Predicate.piecesAll (phrasing d) (lookupPlan c config ps parts values).filters)) =
      "\nWHERE " ++ " AND ".intercalate ((components c ps parts).mapIdx
        fun i x => x.condition d config.markerStyle (i + 1)) := by
  have hsome : (Predicate.piecesAll (phrasing d)
      (lookupPlan c config ps parts values).filters).isEmpty = false := by
    rw [Predicate.piecesAll_eq_map, lookupPlan, List.isEmpty_map, List.isEmpty_eq_false_iff]
    exact fun hnil => h (List.mapIdx_eq_nil_iff.1 hnil)
  have htexts : (Predicate.piecesAll (phrasing d) (lookupPlan c config ps parts values).filters).map
      (Piece.textAll (d.spelling config.markerStyle)) =
      (components c ps parts).mapIdx fun i x => x.condition d config.markerStyle (i + 1) := by
    rw [Predicate.piecesAll_eq_map, lookupPlan, List.mapIdx_eq_zipIdx_map,
      List.mapIdx_eq_zipIdx_map, List.map_map, List.map_map]
    exact List.map_congr_left fun x _ => x.1.text_predicate d config.markerStyle (x.2 + 1)
  rw [Piece.clause, hsome, if_neg (by decide), textAll_cons, textAll_join, htexts]
  rfl

/-- A lookup asks for the first rows in no order. -/
theorem text_back :
    Piece.textAll (d.spelling config.markerStyle) ((lookupPlan c config ps parts values).back d) =
      firstRows d (min config.defaultPageSize config.maxPageSize) := by
  have hback : (lookupPlan c config ps parts values).back d =
      (if d.pagesNeedOrder then [.fixed "\nORDER BY (SELECT NULL)"] else []) ++
        .fixed "\n" :: d.paging (min config.defaultPageSize config.maxPageSize) none := rfl
  generalize min config.defaultPageSize config.maxPageSize = limit at hback ⊢
  have hlimit : "\n" ++ ("LIMIT " ++ toString limit.toNat) =
      "\nLIMIT " ++ toString limit.toNat := by
    have hword : "\n" ++ "LIMIT " = "\nLIMIT " := by decide
    rw [← String.append_assoc, hword]
  rw [hback, textAll_append, textAll_cons]
  cases d with
  | sqlserver =>
    have hopening : "\nORDER BY (SELECT NULL)" ++ "\n" ++ "OFFSET " ++
        toString (0 : UInt64).toNat ++ " ROWS FETCH NEXT " =
        "\nORDER BY (SELECT NULL)\nOFFSET 0 ROWS FETCH NEXT " := by decide
    have horder : Piece.textAll (Dialect.sqlserver.spelling config.markerStyle)
        (if Dialect.sqlserver.pagesNeedOrder then [.fixed "\nORDER BY (SELECT NULL)"] else []) =
        "\nORDER BY (SELECT NULL)" := by
      rw [if_pos (by decide), textAll_singleton, Piece.text]
    rw [horder, Dialect.paging, textAll_cons, textAll_cons, textAll_cons, textAll_cons,
      textAll_singleton]
    unfold firstRows
    dsimp only [Piece.text, Dialect.rows, Option.getD_none]
    rw [← hopening]
    simp only [String.append_assoc]
  | postgres => exact hlimit
  | mysql => exact hlimit
  | sqlite => exact hlimit
  | h2 => exact hlimit

end Text

/-- The key has the word for no value and a `*`. -/
def starred : Term := .call "_key" [.word "byId", .word "null~1*"]

theorem writes_starred : Fragment.Writes "_key(byId,null~1*)" starred :=
  ⟨"_key(byId,null~1*)", by decide, eq_ok_of_toOption (by decide +kernel)⟩

theorem lookup_starred : KeyLookup Query.things starred.lifted (.word "byId") (.word "null~1*")
    (Query.things.properties.take 2) ["null", "1*"] where
  word := by decide
  children := by decide
  found := ⟨⟨"byId", .primary, ["type", "id"]⟩, rfl, rfl, rfl⟩
  decoded := eq_ok_of_toOption (by decide)

/-- The settings with numbered markers. -/
def numberedMarkers : Config := Config.standard.withMarkers .numbered

theorem dotless_things : ∀ p ∈ Query.things.properties, '.' ∉ p.name.toList := by decide

/-- The statement of the lookup. -/
def starredStatement? : Option Statement :=
  (Query.ofString Query.things "_key(byId,null~1*)").toOption.bind fun q =>
    (compile ⟨[Query.things]⟩ numberedMarkers .sqlserver (.ofQuery q)).toOption

theorem exists_compile_starred :
    ∃ q st, Query.ofString Query.things "_key(byId,null~1*)" = .ok q ∧
      compile ⟨[Query.things]⟩ numberedMarkers .sqlserver (.ofQuery q) = .ok st ∧
      st.sql = "SELECT t0.*\nFROM [things] t0\nWHERE t0.[type] = @p1 AND t0.[id] LIKE @p2 " ++
        "ESCAPE '\\'\nORDER BY (SELECT NULL)\nOFFSET 0 ROWS FETCH NEXT 100 ROWS ONLY" := by
  have hcompiles : starredStatement?.map Statement.sql =
      some ("SELECT t0.*\nFROM [things] t0\nWHERE t0.[type] = @p1 AND t0.[id] LIKE @p2 " ++
        "ESCAPE '\\'\nORDER BY (SELECT NULL)\nOFFSET 0 ROWS FETCH NEXT 100 ROWS ONLY") := by
    decide +kernel
  obtain ⟨st, hsome, hsql⟩ := Option.map_eq_some_iff.1 hcompiles
  obtain ⟨q, hq, hst⟩ := Option.bind_eq_some_iff.1 hsome
  exact ⟨q, st, eq_ok_of_toOption hq, eq_ok_of_toOption hst, hsql⟩

/-- A key lookup compares each column of the index with its component of the
key, in the order of the index and with the markers of the values in their
order.  A component with a `*` is compared by `LIKE` with its pattern, any other
by `=` with its value. -/
theorem lookup_compares_components (catalog : Catalog) (c : Collection) (config : Config)
    (d : Dialect) (text : String) (t index key : Term) (ps : List Property) (parts : List String)
    (q : Query) (st : Statement) (hwrites : Fragment.Writes text t)
    (hlookup : KeyLookup c t.lifted index key ps parts) (hbare : key.quote = none)
    (hdot : ∀ p ∈ c.properties, '.' ∉ p.name.toList) (hq : Query.ofString c text = .ok q)
    (hst : compile catalog config d (.ofQuery q) = .ok st) :
    st.sql = "SELECT t0.*\nFROM " ++ d.quote c.tableName ++ " t0\nWHERE " ++
      " AND ".intercalate ((components c ps parts).mapIdx
        fun i x => x.condition d config.markerStyle (i + 1)) ++
      firstRows d (min config.defaultPageSize config.maxPageSize) ∧
    (∃ values, (components c ps parts).mapM Component.value = .ok values ∧
      st.values = (ps.map Property.name).zip values) ∧
    (c.properties.Pairwise (fun p p' => Text.sameWord p.name p'.name = false) →
      components c ps parts = List.zipWith Component.mk ps parts) := by
  obtain ⟨i, _, _, hps⟩ := hlookup.found
  have hmem := Collection.mem_of_keyProperties hps
  have hne := components_ne_nil c (CompositeKey.length_of_decode hlookup.decoded)
    (Collection.keyProperties_ne_nil hps)
  obtain ⟨p, hplan, hstatement⟩ := bind_eq_ok_iff.1 hst
  obtain rfl := pure_eq_ok_iff.1 hstatement
  rw [Query.request_of_lookup hwrites hlookup hq, hbare] at hplan
  obtain ⟨values, hvalues, rfl⟩ := plan_lookup (fun p hp => hdot p (hmem p hp)) hplan
  refine ⟨?_, ⟨values, hvalues, rfl⟩, fun hdistinct => ?_⟩
  · have hwords : " t0" ++ "\nWHERE " = " t0\nWHERE " := by decide
    rw [Plan.statement, pieces_eq_front_back, textAll_append, textAll_append, text_front, text_back,
      text_where c config d ps parts values hne, ← hwords]
    simp only [String.append_assoc]
  · have hnamed : ps.map c.named = ps := by
      rw [List.map_congr_left fun p hp => Collection.named_of_mem hdistinct (hmem p hp)]
      exact List.map_id ps
    rw [components, hnamed]

theorem lookup_compares_components_of_starred :
    ∃ q st, Query.ofString Query.things "_key(byId,null~1*)" = .ok q ∧
      compile ⟨[Query.things]⟩ numberedMarkers .sqlserver (.ofQuery q) = .ok st ∧
      st.sql = "SELECT t0.*\nFROM [things] t0\nWHERE t0.[type] = @p1 AND t0.[id] LIKE @p2 " ++
        "ESCAPE '\\'\nORDER BY (SELECT NULL)\nOFFSET 0 ROWS FETCH NEXT 100 ROWS ONLY" ∧
      st.values = [("type", .text "null"), ("id", .text "1%")] := by
  obtain ⟨q, st, hq, hst, _⟩ := exists_compile_starred
  obtain ⟨hsql, ⟨values, hvalues, hbound⟩, _⟩ := lookup_compares_components _ _ _ _ _ _ _ _ _ _ q st
    writes_starred lookup_starred rfl dotless_things hq hst
  refine ⟨q, st, hq, hst, hsql.trans (by decide +kernel), ?_⟩
  have hstarred : (components Query.things (Query.things.properties.take 2) ["null", "1*"]).mapM
      Component.value = .ok [.text "null", .text "1%"] := eq_ok_of_toOption (by decide +kernel)
  obtain rfl := Except.ok.inj (hvalues.symm.trans hstarred)
  exact hbound

/-- Not all components are compared by `=`. -/
theorem not_lookup_compares_values : ¬∀ (catalog : Catalog) (c : Collection) (config : Config)
    (d : Dialect) (text : String) (t index key : Term) (ps : List Property) (parts : List String)
    (q : Query) (st : Statement), Fragment.Writes text t →
    KeyLookup c t.lifted index key ps parts → key.quote = none →
    (∀ p ∈ c.properties, '.' ∉ p.name.toList) →
    c.properties.Pairwise (fun p p' => Text.sameWord p.name p'.name = false) →
    Query.ofString c text = .ok q → compile catalog config d (.ofQuery q) = .ok st →
    st.sql = "SELECT t0.*\nFROM " ++ d.quote c.tableName ++ " t0\nWHERE " ++
      " AND ".intercalate ((List.zipWith Component.mk ps parts).mapIdx
        fun i x => x.equality d config.markerStyle (i + 1)) ++
      firstRows d (min config.defaultPageSize config.maxPageSize) ∧
    ∃ values, (List.zipWith Component.mk ps parts).mapM (fun x => Value.parse x.property x.part) =
      .ok values ∧ st.values = (ps.map Property.name).zip values := by
  intro h
  obtain ⟨q, st, hq, hst, hwritten⟩ := exists_compile_starred
  obtain ⟨hsql, _⟩ := h _ _ _ _ _ _ _ _ _ _ q st writes_starred lookup_starred rfl dotless_things
    (by decide) hq hst
  exact absurd (hwritten.symm.trans hsql) (by decide +kernel)

end Sql
end ResourceQuery

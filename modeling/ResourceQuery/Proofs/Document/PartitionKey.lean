import Mathlib.Data.List.Nodup
import ResourceQuery.Proofs.Catalog
import ResourceQuery.Proofs.ColumnPath
import ResourceQuery.Proofs.Document.Markers
import ResourceQuery.Proofs.Number.Numeral

set_option autoImplicit false

/-!
# Document queries: the partition that a query is sent to

The partition key is found in the filter terms by a rule of its own, beside
their compilation.  Both ways look up the same property, so a partition key
stands in the query as a condition of its own, with its value as the parameter,
and none is missed that the query has.

Soundness goes from the key to the text: the term that gave the key is compiled
to one comparison (`predicate_of_equated`), this one is among the conditions of
the plan (`exists_condition_of_equated`), and its marker is the name of the
parameter that holds the value (`lookup_parameters`).
-/

namespace ResourceQuery.Document

open FilterText (textAll_append textAll_cons textAll_singleton textAll_join)

/-! ## Equations on the partition key -/

/-- The property of the partition key: the first one of the first index for partitions. -/
def partitionProperty? (c : Collection) : Option Property :=
  (c.firstIndex? .partition).bind fun index => (c.keyProperties index).toOption.bind List.head?

/-- The term equates the property with one value, which is neither the bare
`null` nor a bare text with a `*`. -/
def Equates (c : Collection) (property : Property) (t : Term) : Prop :=
  t.hasToken "eq" = true ∧ ∃ column value, t.children = [column, value] ∧
    c.property? column.token = some property ∧ value.isNull = false ∧ value.isPattern = false

variable {c : Collection} {property : Property} {t value : Term} {r : Request}

/-- The rule by which filter terms are searched. -/
theorem equated?_eq_some (h : equated? c property t = some value) :
    t.hasToken "eq" = true ∧ ∃ path found, t.column = .ok path ∧ t.value = .ok value ∧
      c.property? path = some found ∧ found.name = property.name ∧ value.isNull = false ∧
      value.isPattern = false := by
  unfold equated? at h
  cases hword : t.hasToken "eq" with
  | false =>
    rw [hword] at h
    cases h
  | true =>
    rw [hword, if_pos rfl] at h
    cases hcolumn : t.column with
    | error fault =>
      rw [hcolumn] at h
      cases h
    | ok path =>
      cases hvalue : t.value with
      | error fault =>
        rw [hcolumn, hvalue] at h
        cases h
      | ok v =>
        rw [hcolumn, hvalue] at h
        dsimp only at h
        obtain ⟨hkind, hsome⟩ := Option.ite_none_right_eq_some.1 h
        obtain rfl := Option.some.inj hsome
        simp only [Bool.and_eq_true, Bool.not_eq_true', Option.any_eq_true_iff_get,
          decide_eq_true_eq] at hkind
        obtain ⟨⟨⟨hsome, hname⟩, hpattern⟩, hnull⟩ := hkind
        exact ⟨rfl, path, _, rfl, rfl, Option.eq_some_of_isSome hsome, hname, hnull, hpattern⟩

/-- No equation of the property is overlooked. -/
theorem equated?_ne_none {path : String} (hpath : t.column = .ok path)
    (h : Equates c property t) : equated? c property t ≠ none := by
  obtain ⟨hword, column, value, hchildren, hproperty, hnull, hpattern⟩ := h
  have hvalue : t.value = .ok value := by
    rw [Term.value, hchildren]
  have hcolumn : path = column.token := by
    rw [Term.column, hchildren] at hpath
    dsimp only at hpath
    split at hpath
    · exact (Except.ok.inj hpath).symm
    · cases hpath
  rw [equated?, if_pos hword, hpath, hvalue]
  simp [hcolumn, hproperty, hnull, hpattern]

/-- What the partition key comes from. -/
theorem partitionKey_eq_some {v : Value} (h : partitionKey r = .ok (some v)) :
    ∃ property value, partitionProperty? r.collection = some property ∧
      property ∈ r.collection.properties ∧
      r.filters.findSome? (equated? r.collection property) = some value ∧
      Value.cast property value = .ok v := by
  unfold partitionKey at h
  unfold partitionProperty?
  cases hindex : r.collection.firstIndex? .partition with
  | none =>
    rw [hindex] at h
    cases h
  | some index =>
    rw [hindex] at h
    obtain ⟨properties, hproperties, h⟩ := bind_eq_ok_iff.1 h
    cases properties with
    | nil => cases h
    | cons property rest =>
      dsimp only at h
      cases hfound : r.filters.findSome? (equated? r.collection property) with
      | none =>
        rw [hfound] at h
        cases h
      | some value =>
        rw [hfound] at h
        obtain ⟨v', hcast, h⟩ := bind_eq_ok_iff.1 h
        cases h
        refine ⟨property, value, ?_, ?_, hfound, hcast⟩
        · rw [Option.bind_some, hproperties]
          rfl
        · exact Collection.mem_of_keyProperties hproperties property List.mem_cons_self

/-- Where there is no partition key no filter term equates its property. -/
theorem partitionKey_eq_none (h : partitionKey r = .ok none)
    (hproperty : partitionProperty? r.collection = some property) :
    ∀ t ∈ r.filters, equated? r.collection property t = none := by
  obtain ⟨index, hindex, hproperty⟩ := Option.bind_eq_some_iff.1 hproperty
  obtain ⟨properties, hproperties, hhead⟩ := Option.bind_eq_some_iff.1 hproperty
  obtain ⟨rest, rfl⟩ := List.head?_eq_some_iff.1 hhead
  have hproperties : r.collection.keyProperties index = .ok (property :: rest) :=
    eq_ok_of_toOption hproperties
  unfold partitionKey at h
  rw [hindex] at h
  dsimp only at h
  rw [hproperties, ok_bind] at h
  dsimp only at h
  cases hfound : r.filters.findSome? (equated? r.collection property) with
  | none => exact List.findSome?_eq_none_iff.1 hfound
  | some value =>
    rw [hfound] at h
    obtain ⟨v, _, h⟩ := bind_eq_ok_iff.1 h
    cases h

/-! ## Equations as conditions -/

/-- Names are told apart, and no name of a property or a column has a dot. -/
structure Separable (c : Collection) : Prop where
  names : (c.properties.map Property.name).Nodup
  dots : ∀ p ∈ c.properties, '.' ∉ p.name.toList ∧ '.' ∉ p.columnName.toList

/-- A path that leads to a property by its name is read as this property. -/
theorem inside_of_property? (hc : Separable c) {path : String} {column : Column}
    {found reading : Property} (hfound : c.property? path = some found)
    (h : ColumnPath.inside backend c path = .ok (column, reading)) :
    column = [found.columnName] ∧ reading = found := by
  have hplain := ColumnPath.segments_of_not_mem (Collection.dot_not_mem_of_property? hc.dots hfound)
  obtain ⟨first, nested, found', hsegments, _, hproperty, rfl, rfl⟩ := ColumnPath.inside_ok h
  rw [hplain] at hsegments
  obtain ⟨rfl, rfl⟩ := List.cons.inj hsegments
  obtain rfl := Option.some.inj (hfound.symm.trans (Collection.property_ok_iff.1 hproperty))
  exact ⟨rfl, rfl⟩

/-- The runs for equations. -/
theorem run_of_equation (hword : t.hasToken "eq" = true) {p p' : Progress Unit}
    {q : Predicate Column} (h : (dialog c).predicate t p = .ok (q, p')) :
    (dialog c).AtomRun t p (.comparison .eq) q p' := by
  have hop : Operator.ofWord? t.token = some (.comparison .eq) :=
    (Term.ofWord?_of_hasToken hword).trans (by decide)
  exact Dialog.atomRun_of_word h hop (by decide)

/-- An equation of a property is compiled to a comparison of its column with the value. -/
theorem predicate_of_equated (hc : Separable c) (hmem : property ∈ c.properties)
    (hequated : equated? c property t = some value) {p p' : Progress Unit} {q : Predicate Column}
    (h : (dialog c).predicate t p = .ok (q, p')) :
    ∃ path v, Value.cast property value = .ok v ∧
      q = .comparison .eq [property.columnName] (p.values.length + 1) ∧
      p'.values = p.values ++ [(path, v)] := by
  obtain ⟨hword, path, found, hpath, hvalue, hfound, hname, hnull, hpattern⟩ :=
    equated?_eq_some hequated
  obtain rfl : found = property :=
    List.inj_on_of_nodup_map hc.names (Collection.mem_of_property? hfound) hmem hname
  cases run_of_equation hword h with
  | isNull _ hv hnull' =>
    obtain rfl := Except.ok.inj (hvalue.symm.trans hv)
    rw [hnull] at hnull'
    cases hnull'
  | like _ hv _ hpattern' =>
    obtain rfl := Except.ok.inj (hvalue.symm.trans hv)
    rw [hpattern] at hpattern'
    cases hpattern'
  | compared _ ha hv _ _ hbind =>
    obtain rfl := Except.ok.inj (hvalue.symm.trans hv)
    obtain rfl := Except.ok.inj (hpath.symm.trans ha.path_eq)
    obtain ⟨hinside, rfl⟩ := resolve_ok ha.resolves
    obtain ⟨rfl, rfl⟩ := inside_of_property? hc hfound hinside
    obtain ⟨v, hcast, hbind⟩ := Build.lookup_bind_ok_iff.1 hbind
    obtain ⟨rfl, rfl⟩ := Build.bind_value_ok_iff.1 hbind
    exact ⟨path, v, hcast, rfl, rfl⟩

/-- The first argument of an equation that is compiled is a column. -/
theorem column_of_equation {ts : List Term} {p p' : Progress Unit} {qs : List (Predicate Column)}
    (h : (dialog c).predicates ts p = .ok (qs, p')) (ht : t ∈ ts)
    (hword : t.hasToken "eq" = true) : ∃ path, t.column = .ok path := by
  obtain ⟨before, after, rfl⟩ := List.append_of_mem ht
  obtain ⟨_, _, _, _, _, _, _, hrun, _⟩ := (Dialog.predicates_ok_iff.1 h).of_append_cons
  cases run_of_equation hword hrun with
  | isNull ha => exact ⟨_, ha.path_eq⟩
  | like ha => exact ⟨_, ha.path_eq⟩
  | compared _ ha => exact ⟨_, ha.path_eq⟩

/-- Among the filter terms, such an equation gives one condition, with its value
at the place of the marker. -/
theorem exists_condition_of_equated (hc : Separable c) (hmem : property ∈ c.properties)
    {ts : List Term} (hfound : ts.findSome? (equated? c property) = some value)
    {p p' : Progress Unit} {qs : List (Predicate Column)}
    (h : (dialog c).predicates ts p = .ok (qs, p')) :
    ∃ path v i, Value.cast property value = .ok v ∧
      .comparison .eq [property.columnName] (i + 1) ∈ qs ∧ p'.values[i]? = some (path, v) := by
  obtain ⟨before, t, after, rfl, hequated, _⟩ := List.findSome?_eq_some_iff.1 hfound
  obtain ⟨qs₁, q, qs₂, p₁, p₂, rfl, _, ht, hrest⟩ :=
    (Dialog.predicates_ok_iff.1 h).of_append_cons
  obtain ⟨path, v, hcast, rfl, hvalues⟩ := predicate_of_equated hc hmem hequated ht
  -- what follows in the filter binds further values behind this one
  obtain ⟨bound, hbound, _⟩ := Issued.each hrest fun t _ _ _ _ ht =>
    Dialog.issued_predicate (dialog_issues c) t ht
  refine ⟨path, v, p₁.values.length, hcast, by simp, ?_⟩
  rw [hbound, hvalues, List.append_assoc, List.getElem?_append_right (Nat.le_refl _),
    Nat.sub_self]
  rfl

/-! ## Texts -/

/-- The text of a condition. -/
def conditionText (q : Predicate Column) : String := Piece.textAll spelling (q.pieces phrasing)

/-- The filter as a text: its conditions, which hold together. -/
def Plan.whereText (p : Plan) : String :=
  if p.filters = [] then "" else " WHERE " ++ " AND ".intercalate (p.filters.map conditionText)

/-- The conditions are written one after the other, with `AND` in between. -/
theorem text_wherePieces (p : Plan) : Piece.textAll spelling p.wherePieces = p.whereText := by
  unfold Plan.wherePieces Plan.whereText Piece.clause
  rw [Predicate.piecesAll_eq_map]
  by_cases hnil : p.filters = []
  · rw [if_pos hnil, hnil]
    rfl
  · rw [if_neg hnil, if_neg (by simpa using hnil), textAll_cons, textAll_join, List.map_map]
    rfl

theorem conditionText_comparison (name : String) (k : Nat) :
    conditionText (.comparison .eq [name] k) =
      "c[" ++ quoteSegment name ++ "] = @param" ++ toString k := by
  have hpieces : (Predicate.comparison .eq [name] k).pieces phrasing =
      [.fixed "c", .fixed "[", .name name, .fixed "]", .fixed " = ", .marker k] := rfl
  have htexts : Piece.textAll spelling
      [.fixed "c", .fixed "[", .name name, .fixed "]", .fixed " = ", .marker k] =
      "c" ++ ("[" ++ (quoteSegment name ++ ("]" ++ (" = " ++ ("@param" ++ toString k))))) := by
    rw [textAll_cons, textAll_cons, textAll_cons, textAll_cons, textAll_cons, textAll_singleton]
    rfl
  have hopen : "c[" = "c" ++ "[" := rfl
  have hclose : "] = @param" = "]" ++ (" = " ++ "@param") := rfl
  rw [conditionText, hpieces, htexts, hopen, hclose]
  simp only [String.append_assoc]

/-- The parameter with the number of a marker has the value in its place. -/
theorem lookup_parameters {values : Bindings} {i : Nat} {path : String} {v : Value}
    (h : values[i]? = some (path, v)) :
    (parameters values).lookup ("@param" ++ toString (i + 1)) = some v := by
  obtain ⟨hi, hentry⟩ := List.getElem?_eq_some_iff.1 h
  have hsplit : values = values.take i ++ (path, v) :: values.drop (i + 1) := by
    rw [← hentry, ← List.drop_eq_getElem_cons hi, List.take_append_drop]
  have hbefore : (values.take i).length = i := List.length_take_of_le (Nat.le_of_lt hi)
  have hparameters : parameters values = parameters (values.take i) ++
      ("@param" ++ toString (i + 1), v) ::
        ((values.drop (i + 1)).zipIdx (i + 1)).map fun entry =>
          (spelling.marker (entry.2 + 1), entry.1.2) := by
    conv_lhs => rw [hsplit, parameters, List.zipIdx_append, List.map_append, hbefore, Nat.zero_add]
    rfl
  refine List.lookup_eq_some_iff.2 ⟨_, _, hparameters, ?_⟩
  intro entry hmem
  obtain ⟨⟨bound, j⟩, hj, rfl⟩ := List.mem_map.1 hmem
  have hlt := List.snd_lt_of_mem_zipIdx hj
  refine bne_iff_ne.2 fun heq => ?_
  have hnumbers : i + 1 = j + 1 := Number.eq_of_append_toString heq
  omega

/-! ## The partition key of a query -/

theorem partitionKey_of_compile {config : Config} {q : Query} (h : compile config r = .ok q) :
    partitionKey r = .ok q.partitionKey := by
  unfold compile at h
  obtain ⟨⟨p, f⟩, _, h⟩ := bind_eq_ok_iff.1 h
  obtain ⟨key, hkey, h⟩ := bind_eq_ok_iff.1 h
  obtain rfl := pure_eq_ok_iff.1 h
  exact hkey

/-- A partition key stands among the conditions of the filter, as the equation
of the column with its own parameter; and where a query has no partition key, no
filter term equates the property. -/
theorem compile_partitionKey_sound (config : Config) (r : Request) (q : Query)
    (hc : Separable r.collection) (h : compile config r = .ok q) :
    ∃ p f, plan (dialog r.collection) r ⟨[], ()⟩ = .ok (p, f) ∧
      q.query = Piece.textAll spelling (p.front r.distinct) ++ p.whereText ++
        Piece.textAll spelling (p.back q.window) ∧
      (∀ count, q.countQuery = some count →
        count = "SELECT VALUE COUNT(1) FROM c" ++ p.whereText) ∧
      (∀ v, q.partitionKey = some v →
        ∃ property, ∃ k : Nat, partitionProperty? r.collection = some property ∧
          "c[" ++ quoteSegment property.columnName ++ "] = @param" ++ toString k ∈
            p.filters.map conditionText ∧
          q.parameters.lookup ("@param" ++ toString k) = some v) ∧
      (q.partitionKey = none → ∀ property, partitionProperty? r.collection = some property →
        ∀ t ∈ r.filters, ¬Equates r.collection property t) := by
  obtain ⟨p, f, hplan, hquery, hparameters, _, hcount⟩ := compile_ok h
  obtain ⟨_, _, p₁, p₂, hcourse⟩ := plan_course hplan
  have hkey := partitionKey_of_compile h
  refine ⟨p, f, hplan, ?_, ?_, ?_, ?_⟩
  · rw [hquery, pieces_eq_front_back, textAll_append, textAll_append, text_wherePieces,
      String.append_assoc]
  · intro count hsome
    rw [hcount] at hsome
    split at hsome
    · obtain rfl := Option.some.inj hsome
      rw [Plan.countPieces, textAll_cons, text_wherePieces]
      rfl
    · cases hsome
  · intro v hv
    rw [hv] at hkey
    obtain ⟨property, value, hproperty, hmem, hfound, hcast⟩ := partitionKey_eq_some hkey
    obtain ⟨path, v', i, hcast', hcondition, hentry⟩ :=
      exists_condition_of_equated hc hmem hfound hcourse.filtered
    obtain rfl := Except.ok.inj (hcast.symm.trans hcast')
    refine ⟨property, i + 1, hproperty, ?_, ?_⟩
    · exact List.mem_map.2 ⟨_, hcondition, conditionText_comparison _ _⟩
    · rw [hparameters]
      exact lookup_parameters hentry
  · intro hnone property hproperty t ht hequates
    rw [hnone] at hkey
    obtain ⟨path, hpath⟩ := column_of_equation hcourse.filtered ht hequates.1
    exact equated?_ne_none hpath hequates (partitionKey_eq_none hkey hproperty t ht)

/-- A request for the orders of one tenant, by the second of two equations. -/
def tenantOrders : Request where
  collection := ⟨"orders", none,
    [⟨"city", some "City", .string, true⟩, ⟨"tenant", some "ten\"ant", .integer, false⟩],
    [⟨"byCity", .secondary, ["city"]⟩, ⟨"byTenant", .partition, ["Tenant", "city"]⟩], []⟩
  filters := [.call "sw" [.word "city", .word "a"], .call "eq" [.word "city", .word "b*"],
    .call "EQ" [.word "TENANT", .word "7"], .call "lt" [.word "tenant", .word "9"]]
  page := .none
  after := none
  sorts := []
  groups := []
  includes := []
  computed := []
  distinct := false
  rowCount := false

theorem separable_tenantOrders : Separable tenantOrders.collection where
  names := by decide +kernel
  dots := by
    have hall : (tenantOrders.collection.properties.all fun p =>
        !p.name.toList.contains '.' && !p.columnName.toList.contains '.') = true := by
      decide +kernel
    intro p hp
    simpa using List.all_eq_true.1 hall p hp

theorem compile_partitionKey_of_tenantOrders : Separable tenantOrders.collection ∧
    ∃ q, compile .standard tenantOrders = .ok q ∧ q.partitionKey = some (.int 7) ∧
      q.query = "SELECT * FROM c WHERE STARTSWITH(c[\"City\"], @param1) AND " ++
        "STARTSWITH(c[\"City\"], @param2) AND c[\"ten\\\"ant\"] = @param3 AND " ++
        "c[\"ten\\\"ant\"] < @param4 OFFSET 0 LIMIT 100" ∧
      ∃ property, ∃ k : Nat, partitionProperty? tenantOrders.collection = some property ∧
        q.parameters.lookup ("@param" ++ toString k) = some (.int 7) := by
  have hquery : (compile .standard tenantOrders).toOption.map
      (fun q => (q.partitionKey, q.query)) = some (some (.int 7),
        "SELECT * FROM c WHERE STARTSWITH(c[\"City\"], @param1) AND " ++
        "STARTSWITH(c[\"City\"], @param2) AND c[\"ten\\\"ant\"] = @param3 AND " ++
        "c[\"ten\\\"ant\"] < @param4 OFFSET 0 LIMIT 100") := by
    decide +kernel
  obtain ⟨q, hcompile, hparts⟩ := Option.map_eq_some_iff.1 hquery
  obtain ⟨hkey, htext⟩ := Prod.mk.inj hparts
  have hcompile := eq_ok_of_toOption hcompile
  obtain ⟨p, f, _, _, _, hsome, _⟩ := compile_partitionKey_sound .standard tenantOrders q
    separable_tenantOrders hcompile
  obtain ⟨property, k, hproperty, _, hlookup⟩ := hsome _ hkey
  exact ⟨separable_tenantOrders, q, hcompile, hkey, htext, property, k, hproperty, hlookup⟩

end ResourceQuery.Document

import ResourceQuery.Proofs.Document.Markers
import ResourceQuery.Proofs.KeyValue.KeyCondition
import ResourceQuery.Proofs.Sql.Filters
import ResourceQuery.Target

set_option autoImplicit false

/-!
# Targets: filters keep their truth

Whatever a query is compiled for, the filter that is emitted has one reading,
and it is true exactly where all filter terms of the query are.

For each target this is `spoken` of its steps, carried to the text that is
emitted. The filter is found in the text again by the pieces before and behind
it, whose markers are counted, and no reading of it but the one is possible.
-/

namespace ResourceQuery

open FilterText

/-! ## Document queries -/

namespace Document

/-- The filter of a query, as it stands in the query and in the one that counts
rows, says that all filter terms hold. -/
def FilterKept (r : Request) (q : Query) : Prop :=
  ∃ (p : Plan) (f : Progress Unit),
    plan (dialog r.collection) r ⟨[], ()⟩ = .ok (p, f) ∧ f.values = q.values ∧
    q.query = Piece.textAll spelling (p.front r.distinct) ++
      (opened " WHERE " (voice.filter p.filters) ++ Piece.textAll spelling (p.back q.window)) ∧
    (∀ count, q.countQuery = some count →
      count = "SELECT VALUE COUNT(1) FROM c" ++ opened " WHERE " (voice.filter p.filters)) ∧
    reader.Says spelling.marker q.values (Piece.markers (p.front r.distinct)).length
      (voice.filter p.filters)
      fun ρ => r.filters.all ((sense (voice.meaning ρ)).holds ((dialog r.collection).look f))

theorem filterKept_of_compile {config : Config} {r : Request} {q : Query}
    (hplain : r.filters.all (plainTerm r.collection) = true) (h : compile config r = .ok q) :
    FilterKept r q := by
  obtain ⟨p, f, hplan, hquery, _, hvalues, hcount⟩ := compile_ok h
  obtain ⟨_, hfits, p₁, hfilters, hlength⟩ := plan_ok hplan
  refine ⟨p, f, hplan, hvalues.symm, ?_, ?_, ?_⟩
  · rw [hquery, pieces_eq_front_back, textAll_append, textAll_append, Plan.wherePieces]
    exact congrArg _ (congrArg (· ++ _) (voice.textAll_clause _ _))
  · intro count hsome
    rw [hcount] at hsome
    split at hsome
    · obtain rfl := Option.some.inj hsome
      have hpieces : p.countPieces = [.fixed "SELECT VALUE COUNT(1) FROM c"] ++ p.wherePieces := rfl
      rw [hpieces, textAll_append, textAll_singleton]
      exact congrArg _ (voice.textAll_clause _ _)
    · cases hsome
  · rw [markers_front hfits, List.length_map, ← hlength, hvalues]
    exact (spoken r.collection).says_filter
      (fun t ht => finds_of_plainTerm (List.all_eq_true.1 hplain t ht)) hfilters
      (growth.later_refl f)

end Document

/-! ## Key-value requests -/

namespace KeyValue

/-- The key condition and the filter of a request say together that all filter terms hold. -/
def FilterKept (r : ResourceQuery.Request) (req : Request) : Prop :=
  ∃ (pl : Plan) (f : Progress Names) (keyed others : (List Sign → Bool) → Bool),
    plan (dialog r.collection) r ⟨[], []⟩ = .ok (pl, f) ∧ f.values = req.values ∧
    reader.Says spelling.marker req.values 0 req.keyCondition keyed ∧
    reader.Says spelling.marker req.values
      (pl.conditions.flatMap Predicate.slots).length req.filter others ∧
    ∀ ρ, (keyed ρ && others ρ) =
      r.filters.all ((sense (voice.meaning ρ)).holds ((dialog r.collection).look f))

/-- The text that the voice reads is the one that the request is given. -/
theorem filter_voice (qs : List (Predicate Column)) : voice.filter qs = condition? qs := by
  unfold Voice.filter condition? expression?
  rw [Predicate.piecesAll_eq_map, List.isEmpty_map, Predicate.conjunction,
    Predicate.piecesAll_eq_map]
  rfl

theorem filterKept_of_compile {config : Config} {r : ResourceQuery.Request} {req : Request}
    (h : compile config r = .ok req) : FilterKept r req := by
  obtain ⟨pl, p₃, hplan, _, _, hcondition, hfilter, _, _, _, hvalues⟩ := compile_ok h
  obtain ⟨choice, p₁, p₂, hcourse⟩ := plan_course hplan
  obtain ⟨selected, hselected, _⟩ := hcourse.selected
  have hissues := dialog_issues r.collection
  have hfirst : p₁.values = [] := Dialog.values_eq_of_columns hissues hselected
  obtain ⟨bound, hbound, hnumbered⟩ := Dialog.issued_predicates hissues hcourse.keyed
  have hlength : (pl.conditions.flatMap Predicate.slots).length = p₂.values.length := by
    have hnumbers := congrArg List.length hnumbered.numbers_eq
    rw [List.length_map, List.length_range'] at hnumbers
    rw [hnumbers, hbound, hfirst]
    rfl
  have hlater : p₂.Later (fun names names' : Names => names <+: names') p₃ :=
    (Dialog.settles_predicates (dialog_truthful r.collection (voice.meaning fun _ => true))
      hcourse.filtered).later
  have hfinds : ∀ ts : List Term, ∀ t ∈ ts, (dialog r.collection).Finds Named t :=
    fun _ t _ => dialog_finds r.collection t
  have hkeyed := (spoken r.collection).says_filter (hfinds _) hcourse.keyed hlater
  rw [hfirst, filter_voice, ← hcondition, ← hvalues] at hkeyed
  have hothers := (spoken r.collection).says_filter (hfinds _) hcourse.filtered
    (growth.later_refl p₃)
  rw [filter_voice, ← hfilter, ← hvalues, ← hlength] at hothers
  refine ⟨pl, p₃, _, _, hplan, hvalues.symm, hkeyed, hothers, fun ρ => ?_⟩
  rw [← List.all_append]
  exact hcourse.decided.perm.all_eq

end KeyValue

/-! ## All targets -/

/-- The filter of a compiled query says that all filter terms of the request
hold.  For document queries this is asked only of filters without backslashes in
their columns. -/
def Compiled.FilterKept (catalog : Catalog) (config : Config) (r : Request) : Compiled → Prop
  | sql statement => Sql.FilterKept catalog config r statement
  | document query =>
    r.filters.all (Document.plainTerm r.collection) = true → Document.FilterKept r query
  | keyValue request => KeyValue.FilterKept r request

/-- Filters keep their truth, whatever a query is compiled for. -/
theorem Target.compile_keeps_filter_truth (target : Target) (catalog : Catalog) (config : Config)
    (q : Query) (compiled : Compiled) (h : target.compile catalog config q = .ok compiled) :
    compiled.FilterKept catalog config (.ofQuery q) := by
  cases target with
  | sql dialect =>
    obtain ⟨statement, hcompile, rfl⟩ := map_eq_ok_iff.1 h
    exact Sql.filterKept_of_compile hcompile
  | document =>
    obtain ⟨query, hcompile, rfl⟩ := map_eq_ok_iff.1 h
    exact fun hplain => Document.filterKept_of_compile hplain hcompile
  | keyValue =>
    obtain ⟨request, hcompile, rfl⟩ := map_eq_ok_iff.1 h
    exact KeyValue.filterKept_of_compile hcompile

/-- A query with every connective in its filter. -/
def Query.byConditions : Query :=
  ((Query.new ⟨"things", none,
    [⟨"type", none, .string, false⟩, ⟨"id", none, .integer, false⟩, ⟨"name", none, .string, true⟩],
    [], []⟩).add "if(n(name),in(id,1,2),not(or(sw(type,a,b),and(emp(name),eq(id,3)))))").2

theorem Target.compile_keeps_truth_of_conditions : ∃ query,
    document.compile ⟨[]⟩ .standard .byConditions = .ok (.document query) ∧
      query.query =
        "SELECT * FROM c WHERE ((NOT IS_DEFINED(c[\"name\"]) OR IS_NULL(c[\"name\"])) ? " ++
        "c[\"id\"] IN (@param1, @param2) : NOT (((STARTSWITH(c[\"type\"], @param3) OR " ++
        "STARTSWITH(c[\"type\"], @param4)) OR ((NOT IS_DEFINED(c[\"name\"]) OR " ++
        "IS_NULL(c[\"name\"]) OR c[\"name\"] = \"\") AND c[\"id\"] = @param5)))) " ++
        "OFFSET 0 LIMIT 100" ∧
      Document.FilterKept (.ofQuery .byConditions) query := by
  have hquery : (Document.compile .standard (.ofQuery .byConditions)).toOption.map
      Document.Query.query = some
        ("SELECT * FROM c WHERE ((NOT IS_DEFINED(c[\"name\"]) OR IS_NULL(c[\"name\"])) ? " ++
        "c[\"id\"] IN (@param1, @param2) : NOT (((STARTSWITH(c[\"type\"], @param3) OR " ++
        "STARTSWITH(c[\"type\"], @param4)) OR ((NOT IS_DEFINED(c[\"name\"]) OR " ++
        "IS_NULL(c[\"name\"]) OR c[\"name\"] = \"\") AND c[\"id\"] = @param5)))) " ++
        "OFFSET 0 LIMIT 100") := by
    decide +kernel
  have hplain : (Request.ofQuery .byConditions).filters.all
      (Document.plainTerm (Request.ofQuery .byConditions).collection) = true := by
    decide +kernel
  obtain ⟨query, hcompile, htext⟩ := Option.map_eq_some_iff.1 hquery
  have hcompiled : document.compile ⟨[]⟩ .standard .byConditions = .ok (.document query) :=
    map_eq_ok_iff.2 ⟨query, eq_ok_of_toOption hcompile, rfl⟩
  exact ⟨query, hcompiled, htext,
    compile_keeps_filter_truth .document ⟨[]⟩ .standard .byConditions _ hcompiled hplain⟩

end ResourceQuery

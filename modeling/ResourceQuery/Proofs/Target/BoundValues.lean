import Mathlib.Data.List.Perm.Basic
import ResourceQuery.Proofs.ColumnPath
import ResourceQuery.Proofs.Document.Markers
import ResourceQuery.Proofs.KeyValue.KeyCondition
import ResourceQuery.Proofs.Sql.Markers
import ResourceQuery.Proofs.Statement.BoundLiterals
import ResourceQuery.Target

set_option autoImplicit false

/-!
# Targets: bound values

Of a query whose conditions are portable, all targets bind the same values. They
do so in the same order, except that a key-value request binds those of its key
condition first.

Every target is shown to bind the literals of its predicates as values of the
properties that it reads paths by (`reads_of_compile`).  Targets are then
compared by their readings alone: with joins and without, a path that is read at
all is read by the same property.
-/

namespace ResourceQuery

/-- The filter terms of a request and the conditions in its computed columns, in
the order in which their values are bound. -/
def Request.predicates (r : Request) : List Term :=
  r.computed.flatMap (fun c => c.expression.conditions) ++ r.filters

theorem Request.literals_predicates (r : Request) : r.predicates.flatMap Term.literals =
    (r.computed.flatMap fun c => c.expression.conditions.flatMap Term.literals) ++
      r.filters.flatMap Term.literals := by
  rw [predicates, List.flatMap_append, List.flatMap_assoc]

section Portable

variable {r : Request} (h : ∀ t ∈ r.predicates, t.isPortable = true)
include h

theorem Request.isPortable_of_computed :
    ∀ c ∈ r.computed, ∀ u ∈ c.expression.conditions, u.isPortable = true := by
  intro c hc u hu
  exact h u (List.mem_append_left _ (List.mem_flatMap.2 ⟨c, hc, hu⟩))

/-- The filter terms of a portable request are portable. -/
theorem Request.isPortable_of_filters : ∀ t ∈ r.filters, t.isPortable = true := by
  intro t ht
  exact h t (List.mem_append_right _ ht)

end Portable

/-! ## Relational statements -/

namespace Sql

/-- The property at the end of a path through relationships. -/
def reading (catalog : Catalog) (root : Collection) (limit : Nat) (path : String) :
    Except Fault Property :=
  Resolved.property <$> ColumnPath.follow catalog root limit path

theorem dialog_readsBy (catalog : Catalog) (root : Collection) (limit : Nat) :
    (dialog catalog root limit).ReadsBy (reading catalog root limit) := by
  refine ⟨fun {path p p' c property} h => ?_⟩
  obtain ⟨resolved, scope, hfollow, _, _, rfl, rfl⟩ := resolve_run catalog root limit h
  exact ⟨map_eq_ok_iff.2 ⟨resolved, hfollow, rfl⟩, rfl⟩

theorem reads_of_compile {catalog : Catalog} {config : Config} {d : Dialect} {r : Request}
    {st : Statement} (hportable : ∀ t ∈ r.predicates, t.isPortable = true)
    (h : compile catalog config d r = .ok st) :
    List.Forall₂ (Reads (reading catalog r.collection config.maxRelationshipDepth.toNat))
      (r.predicates.flatMap Term.literals) st.values := by
  have hissues := dialog_issues catalog r.collection config.maxRelationshipDepth.toNat
  have hreads := dialog_readsBy catalog r.collection config.maxRelationshipDepth.toNat
  obtain ⟨pl, hplan, hst⟩ := bind_eq_ok_iff.1 h
  obtain rfl := pure_eq_ok_iff.1 hst
  obtain ⟨plain, es, p₁, p₂, p₃, p₄, f, hcourse⟩ := plan_course hplan
  have hcomputed := Dialog.binds_computed hreads Expression.isLeaf_of_ofStar
    (Request.isPortable_of_computed hportable) hcourse.computed
  have hfilters := Dialog.binds_predicates hreads (Request.isPortable_of_filters hportable)
    hcourse.filtered
  obtain ⟨bound, hbound, hall⟩ :=
    (Binds.after (Dialog.values_eq_of_columns hissues hcourse.selected) hcomputed).trans hfilters
  have hvalues : pl.values = bound := by
    rw [hcourse.values, values_eq_of_orders hissues r hcourse.ordered,
      Dialog.values_eq_of_groups hissues hcourse.grouped, hbound]
    rfl
  change List.Forall₂ _ _ pl.values
  rw [r.literals_predicates, hvalues]
  exact hall

end Sql

/-! ## Document queries -/

namespace Document

/-- The property that a path inside a document is read by. -/
def reading (root : Collection) (path : String) : Except Fault Property :=
  Prod.snd <$> ColumnPath.inside backend root path

theorem dialog_readsBy (root : Collection) : (dialog root).ReadsBy (reading root) where
  resolve h := by
    obtain ⟨hinside, rfl⟩ := resolve_ok h
    exact ⟨map_eq_ok_iff.2 ⟨_, hinside, rfl⟩, rfl⟩

theorem reads_of_compile {config : Config} {r : Request} {q : Query}
    (hportable : ∀ t ∈ r.predicates, t.isPortable = true) (h : compile config r = .ok q) :
    List.Forall₂ (Reads (reading r.collection)) (r.predicates.flatMap Term.literals) q.values := by
  have hreads := dialog_readsBy r.collection
  obtain ⟨pl, f, hplan, _, _, hvalues, _⟩ := compile_ok h
  obtain ⟨plain, es, p₁, p₂, hcourse⟩ := plan_course hplan
  have hcomputed := Dialog.binds_computed hreads Expression.isLeaf_of_ofStar
    (Request.isPortable_of_computed hportable) hcourse.computed
  have hfilters := Dialog.binds_predicates hreads (Request.isPortable_of_filters hportable)
    hcourse.filtered
  have hselected := Dialog.values_eq_of_columns (dialog_issues r.collection) hcourse.selected
  obtain ⟨bound, hbound, hall⟩ := (Binds.after hselected hcomputed).trans hfilters
  rw [r.literals_predicates, hvalues, hbound]
  exact hall

end Document

/-! ## Key-value requests -/

namespace KeyValue

/-- The property that a path inside an item is read by. -/
def reading (root : Collection) (path : String) : Except Fault Property :=
  Prod.snd <$> ColumnPath.inside backend root path

theorem dialog_readsBy (root : Collection) : (dialog root).ReadsBy (reading root) where
  resolve h := by
    obtain ⟨segments, hinside, _, hvalues⟩ := resolve_ok h
    exact ⟨map_eq_ok_iff.2 ⟨_, hinside, rfl⟩, hvalues⟩

/-- A key-value request has no computed columns. -/
theorem computed_eq_nil {config : Config} {r : ResourceQuery.Request} {req : Request}
    (h : compile config r = .ok req) : r.computed = [] := by
  unfold compile at h
  obtain ⟨_, hsupported, _⟩ := bind_eq_ok_iff.1 h
  unfold checkSupported at hsupported
  split at hsupported
  · cases hsupported
  · next hcomputed => exact hcomputed

/-- The literals are bound in another order, where there is a key condition. -/
theorem reads_of_compile {config : Config} {r : ResourceQuery.Request} {req : Request}
    (hportable : ∀ t ∈ r.predicates, t.isPortable = true) (h : compile config r = .ok req) :
    ∃ literals : List (String × Term), literals.Perm (r.predicates.flatMap Term.literals) ∧
      (req.operation = .scan → literals = r.predicates.flatMap Term.literals) ∧
      List.Forall₂ (Reads (reading r.collection)) literals req.values := by
  have hreads := dialog_readsBy r.collection
  have hfilters := Request.isPortable_of_filters hportable
  have hpredicates : r.predicates = r.filters := by
    rw [ResourceQuery.Request.predicates, computed_eq_nil h]
    rfl
  obtain ⟨pl, f, hplan, hoperation, _, _, _, _, _, _, hvalues⟩ := compile_ok h
  obtain ⟨choice, p₁, p₂, hcourse⟩ := plan_course hplan
  obtain ⟨selected, hselected, _⟩ := hcourse.selected
  have hperm := hcourse.decided.perm
  have hmem : ∀ t ∈ keyTerms r.filters choice ++ otherTerms r.filters choice, t.isPortable = true :=
    fun t ht => hfilters t (hperm.mem_iff.1 ht)
  have hkeyed := Dialog.binds_predicates hreads
    (fun t ht => hmem t (List.mem_append_left _ ht)) hcourse.keyed
  have hfiltered := Dialog.binds_predicates hreads
    (fun t ht => hmem t (List.mem_append_right _ ht)) hcourse.filtered
  obtain ⟨bound, hbound, hall⟩ := (Binds.after
    (Dialog.values_eq_of_columns (dialog_issues r.collection) hselected) hkeyed).trans hfiltered
  rw [← List.flatMap_append] at hall
  rw [hpredicates]
  refine ⟨_, hperm.flatMap_right _, fun hscan => ?_, ?_⟩
  · have hnone : choice = none := by
      rw [hoperation, hcourse.isSome_key] at hscan
      cases choice with
      | none => rfl
      | some k => cases hscan
    subst hnone
    have hothers : otherTerms r.filters none = r.filters := by
      have hall : (r.filters.zipIdx.filter fun x => !([] : List Nat).contains x.2) =
        r.filters.zipIdx := List.filter_eq_self.2 fun _ _ => rfl
      exact (congrArg (List.map Prod.fst) hall).trans (List.zipIdx_map_fst 0 r.filters)
    rw [hothers]
    rfl
  · rw [hvalues, hbound]
    exact hall

end KeyValue

/-! ## All targets -/

/-- Where a path is read with joins and without, it is read by the same property. -/
theorem reading_agrees {catalog : Catalog} {root : Collection} {limit : Nat} {backend : String} :
    ∀ path property property', Sql.reading catalog root limit path = .ok property →
      Prod.snd <$> ColumnPath.inside backend root path = .ok property' → property = property' := by
  intro path property property' h h'
  obtain ⟨resolved, hfollow, rfl⟩ := map_eq_ok_iff.1 h
  obtain ⟨⟨columns, found⟩, hinside, rfl⟩ := map_eq_ok_iff.1 h'
  exact ColumnPath.eq_of_follow_of_inside hfollow hinside

theorem inside_reading_agrees {root : Collection} {backend backend' : String} :
    ∀ path property property', Prod.snd <$> ColumnPath.inside backend root path = .ok property →
      Prod.snd <$> ColumnPath.inside backend' root path = .ok property' → property = property' := by
  intro path property property' h h'
  obtain ⟨⟨columns, found⟩, hinside, rfl⟩ := map_eq_ok_iff.1 h
  obtain ⟨⟨columns', found'⟩, hinside', rfl⟩ := map_eq_ok_iff.1 h'
  exact ColumnPath.eq_of_inside hinside hinside'

/-- Literals in another order are bound as the same values in another order. -/
theorem perm_of_reads {reading reading' : String → Except Fault Property}
    (hagree : ∀ path property property', reading path = .ok property →
      reading' path = .ok property' → property = property')
    {literals literals' : List (String × Term)} {bound bound' : Bindings}
    (hperm : literals'.Perm literals) (h : List.Forall₂ (Reads reading) literals bound)
    (h' : List.Forall₂ (Reads reading') literals' bound') : bound'.Perm bound := by
  obtain ⟨values, hvalues, hbound⟩ := List.perm_comp_forall₂ hperm h
  rwa [eq_of_reads hagree hvalues h'] at hbound

/-- A query whose filter fixes a key behind other conditions. -/
def Query.byKeyAndName : Query :=
  ((Query.new ⟨"things", none,
    [⟨"type", none, .string, false⟩, ⟨"id", none, .integer, false⟩, ⟨"name", none, .string, true⟩],
    [⟨"byId", .primary, ["type", "id"]⟩], []⟩).add
      "and(not(in(id,1,2)),or(eq(name,null),ne(name,\"*\")),eq(type,a),gt(id,3))").2

end ResourceQuery

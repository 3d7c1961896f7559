import ResourceQuery.Proofs.Statement.Congruence
import ResourceQuery.Target

set_option autoImplicit false

/-!
# Targets: comparisons of plans

A comparison of runs goes through the plans of relational statements and of
document queries: two targets that compare in the columns that they resolve and
in the filters of two requests compare in the parts of the plans.  The requests
may differ in what no part of a plan looks at.

The comparison `Rel` is arbitrary: it is the relation of two runs side by side
in one use, and that of matching runs in another.
-/

namespace ResourceQuery

open Build (Congruence)

/-! ## Relational targets -/

namespace Sql

variable {Rel : ∀ {α α' : Type}, (α → α' → Prop) → Build Scope α → Build Scope α' → Prop}
  {d d' : Dialog Scope Column}

theorem orders_congr (hrel : Congruence @Rel)
    (hresolve : ∀ path, Rel Eq (d.resolve path) (d'.resolve path)) (r r' : Request)
    (hcomputed : r'.computed = r.computed) (sorts : List SortKey) :
    Rel Eq (orders d r sorts) (orders d' r' sorts) := by
  induction sorts with
  | nil => exact hrel.pure rfl
  | cons sort sorts ih =>
    have halias : r'.hasAlias sort.column = r.hasAlias sort.column := by
      rw [Request.hasAlias, Request.hasAlias, hcomputed]
    rw [orders, orders, halias]
    split
    · refine hrel.bind (S := Eq) (hrel.pure rfl) fun by_ by_' hby => ?_
      exact hrel.bind ih fun rest rest' hrest => hrel.pure (by rw [hby, hrest])
    · refine hrel.bind (hresolve sort.column) fun found found' hfound => ?_
      subst hfound
      refine hrel.bind (S := Eq) (hrel.pure rfl) fun by_ by_' hby => ?_
      exact hrel.bind ih fun rest rest' hrest => hrel.pure (by rw [hby, hrest])

theorem parts_congr (hrel : Congruence @Rel)
    (hresolve : ∀ path, Rel Eq (d.resolve path) (d'.resolve path))
    (hpredicate : ∀ t, Rel Eq (d.predicate t) (d'.predicate t)) (r : Request)
    {collection : Collection} {filters : List Term} {page : Paging}
    (hfilters : Rel Eq (d.predicates r.filters) (d'.predicates filters)) :
    Rel Eq (parts d r) (parts d' { r with collection, filters, page }) := by
  refine hrel.bind (Dialog.columns_congr hrel hresolve _) fun plain plain' hplain => ?_
  refine hrel.bind (Dialog.computed_congr hrel hresolve hpredicate _) fun es es' hes => ?_
  refine hrel.bind hfilters fun ps ps' hps => ?_
  refine hrel.bind (Dialog.groups_congr hrel hresolve _) fun groups groups' hgroups => ?_
  refine hrel.bind (orders_congr hrel hresolve r { r with collection, filters, page } rfl _)
    fun orders orders' horders => ?_
  exact hrel.pure (by rw [hplain, hes, hps, hgroups, horders])

end Sql

/-! ## The document target -/

namespace Document

variable {Rel : ∀ {α α' : Type}, (α → α' → Prop) → Build Unit α → Build Unit α' → Prop}
  {d d' : Dialog Unit Column}

theorem orders_congr (hrel : Congruence @Rel)
    (hresolve : ∀ path, Rel Eq (d.resolve path) (d'.resolve path)) (r r' : Request)
    (hcomputed : r'.computed = r.computed) (sorts : List SortKey) :
    Rel Eq (orders d r sorts) (orders d' r' sorts) := by
  induction sorts with
  | nil => exact hrel.pure rfl
  | cons sort sorts ih =>
    have halias : r'.hasAlias sort.column = r.hasAlias sort.column := by
      rw [Request.hasAlias, Request.hasAlias, hcomputed]
    rw [orders, orders, halias]
    split
    · exact hrel.bind (S := fun _ _ => False) hrel.throw fun _ _ h => h.elim
    · refine hrel.bind (hresolve sort.column) fun found found' hfound => ?_
      subst hfound
      exact hrel.bind ih fun rest rest' hrest => hrel.pure (by rw [hrest])

theorem plan_congr (hrel : Congruence @Rel)
    (hresolve : ∀ path, Rel Eq (d.resolve path) (d'.resolve path))
    (hpredicate : ∀ t, Rel Eq (d.predicate t) (d'.predicate t)) (r : Request)
    {collection : Collection} {filters : List Term} {page : Paging}
    (hfilters : Rel Eq (d.predicates r.filters) (d'.predicates filters)) :
    Rel Eq (plan d r) (plan d' { r with collection, filters, page }) := by
  refine hrel.bind (Dialog.columns_congr hrel hresolve _) fun plain plain' hplain => ?_
  refine hrel.bind (Dialog.computed_congr hrel hresolve hpredicate _) fun es es' hes => ?_
  refine hrel.bind hfilters fun ps ps' hps => ?_
  refine hrel.bind (Dialog.groups_congr hrel hresolve _) fun groups groups' hgroups => ?_
  refine hrel.bind (orders_congr hrel hresolve r { r with collection, filters, page } rfl _)
    fun orders orders' horders => ?_
  exact hrel.pure (by rw [hplain, hes, hps, hgroups, horders])

end Document
end ResourceQuery

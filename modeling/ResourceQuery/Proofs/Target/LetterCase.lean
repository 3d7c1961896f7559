import ResourceQuery.Catalog.Sample
import ResourceQuery.Proofs.Query.LetterCase
import ResourceQuery.Proofs.Target.Matching

set_option autoImplicit false

/-!
# Targets: the letter case of operators

Whether the operators of a filter are written in capitals or not makes no
difference: the query takes in both filters or none of them, and every target
compiles both queries to the same or none of them.

The two requests are compiled side by side (`Proofs/Target/Matching`).  What is
left is what targets look up in the filter terms by themselves, such as the
partition key; there, too, operators are found by their word without regard to
case.
-/

namespace ResourceQuery

open Store (Loose Over)
open Term (Recased)

variable {config : Config} {filters : List Term} {page : Paging}

/-! ## Requests -/

theorem Sql.compile_of_recased {catalog : Catalog} {dialect : Dialect} {r : Request}
    {st : Statement} (hfilters : List.Forall₂ Recased r.filters filters)
    (hwindow : page.window config = r.page.window config)
    (h : compile catalog config dialect { r with filters, page } = .ok st) :
    compile catalog config dialect r = .ok st := by
  obtain ⟨p, hplan, h⟩ := bind_eq_ok_iff.1 h
  refine bind_eq_ok_iff.2 ⟨p, ?_, h⟩
  unfold plan at hplan ⊢
  dsimp only at hplan ⊢
  split at hplan
  · cases hplan
  · next hafter =>
    rw [if_neg hafter]
    obtain ⟨⟨result, progress⟩, hrun, hplan⟩ := bind_eq_ok_iff.1 hplan
    refine bind_eq_ok_iff.2 ⟨_, (matches_parts (.refl _) r hfilters).ok hrun, ?_⟩
    rw [← hwindow]
    exact hplan

namespace Document

variable {c : Collection} {property : Property} {t t' : Term}

theorem equated?_of_recased (h : Recased t t') {v' : Term} (hv' : equated? c property t' = some v') :
    ∃ v, equated? c property t = some v ∧ Recased v v' := by
  unfold equated? at hv' ⊢
  rw [h.hasToken_eq]
  split at hv'
  · next hword =>
    rw [if_pos hword]
    split at hv'
    · next path value hpath hvalue =>
      obtain ⟨v, hv, hrecased⟩ := h.value hvalue
      rw [h.column hpath, hv]
      dsimp only at hv' ⊢
      rw [hrecased.isPattern_eq, hrecased.isNull_eq]
      split at hv'
      · next hproperty =>
        obtain rfl := Option.some.inj hv'
        exact ⟨v, if_pos hproperty, hrecased⟩
      · cases hv'
    · cases hv'
  · cases hv'

theorem rel_equated? (c : Collection) (property : Property) (h : Recased t t') :
    Option.Rel Recased (equated? c property t) (equated? c property t') := by
  cases hv' : equated? c property t' with
  | some v' =>
    obtain ⟨v, hv, hrecased⟩ := equated?_of_recased h hv'
    rw [hv]
    exact .some hrecased
  | none =>
    cases hv : equated? c property t with
    | none => exact .none
    | some v =>
      obtain ⟨v', hsome, _⟩ := equated?_of_recased h.symm hv
      rw [hv'] at hsome
      cases hsome

theorem rel_findSome?_equated? (c : Collection) (property : Property) {ts ts' : List Term}
    (h : List.Forall₂ Recased ts ts') :
    Option.Rel Recased (ts.findSome? (equated? c property))
      (ts'.findSome? (equated? c property)) := by
  induction h with
  | nil => exact .none
  | @cons t t' ts ts' ht _ ih =>
    rw [List.findSome?_cons, List.findSome?_cons]
    have hfirst := rel_equated? c property ht
    generalize equated? c property t = found, equated? c property t' = found' at hfirst ⊢
    cases hfirst with
    | none => exact ih
    | some hrecased => exact .some hrecased

/-- The partition key is the same. -/
theorem partitionKey_of_recased {r : Request} {key : Option Value}
    (hfilters : List.Forall₂ Recased r.filters filters)
    (h : partitionKey { r with filters, page } = .ok key) : partitionKey r = .ok key := by
  unfold partitionKey at h ⊢
  dsimp only at h ⊢
  cases hindex : r.collection.firstIndex? .partition with
  | none =>
    rw [hindex] at h
    exact h
  | some index =>
    rw [hindex] at h
    obtain ⟨properties, hproperties, h⟩ := bind_eq_ok_iff.1 h
    refine bind_eq_ok_iff.2 ⟨properties, hproperties, ?_⟩
    cases properties with
    | nil => exact h
    | cons property _ =>
      dsimp only at h ⊢
      have hfound := rel_findSome?_equated? r.collection property hfilters
      generalize r.filters.findSome? (equated? r.collection property) = found,
        filters.findSome? (equated? r.collection property) = found' at hfound h ⊢
      cases hfound with
      | none => exact h
      | some hrecased =>
        obtain ⟨v, hv, h⟩ := bind_eq_ok_iff.1 h
        exact bind_eq_ok_iff.2 ⟨v, hrecased.cast hv, h⟩

theorem compile_of_recased {r : Request} {out : Query}
    (hfilters : List.Forall₂ Recased r.filters filters)
    (hwindow : page.window config = r.page.window config)
    (h : compile config { r with filters, page } = .ok out) : compile config r = .ok out := by
  obtain ⟨⟨p, progress⟩, hrun, h⟩ := bind_eq_ok_iff.1 h
  obtain ⟨key, hkey, h⟩ := bind_eq_ok_iff.1 h
  refine bind_eq_ok_iff.2 ⟨_, (matches_plan (.refl _) r hfilters).ok hrun, ?_⟩
  refine bind_eq_ok_iff.2 ⟨key, partitionKey_of_recased hfilters hkey, ?_⟩
  rw [← hwindow]
  exact h

end Document

theorem KeyValue.compile_of_recased {r : ResourceQuery.Request} {out : Request}
    (hfilters : List.Forall₂ Recased r.filters filters)
    (hwindow : page.window config = r.page.window config)
    (h : compile config { r with filters, page } = .ok out) : compile config r = .ok out := by
  obtain ⟨_, hsupported, h⟩ := bind_eq_ok_iff.1 h
  obtain ⟨⟨p, progress⟩, hrun, h⟩ := bind_eq_ok_iff.1 h
  refine bind_eq_ok_iff.2 ⟨_, hsupported, ?_⟩
  refine bind_eq_ok_iff.2 ⟨_, (matches_plan (.refl _) r hfilters).ok hrun, ?_⟩
  rw [← hwindow]
  exact h

/-! ## Queries -/

namespace Target

/-- What a target makes of a query, it makes of one whose filters differ in the
case of their operators. -/
theorem compile_of_recased {target : Target} {catalog : Catalog} {c : Collection} {q q' : Query}
    {out : Compiled} (hq : Query.Reached c q) (hq' : Query.Reached c q')
    (hfilters : List.Forall₂ Recased (q.terms .filter) (q'.terms .filter))
    (hterms : ∀ kind, kind ≠ .filter → q.terms kind = q'.terms kind)
    (h : target.compile catalog config q' = .ok out) : target.compile catalog config q = .ok out := by
  obtain ⟨hrequest, hwindow⟩ := Request.ofQuery_alike hq hq' hterms
  unfold compile at h ⊢
  rw [hrequest] at h
  cases target with
  | sql dialect =>
    obtain ⟨st, hst, rfl⟩ := map_eq_ok_iff.1 h
    exact map_eq_ok_iff.2 ⟨st, Sql.compile_of_recased hfilters (hwindow config) hst, rfl⟩
  | document =>
    obtain ⟨d, hd, rfl⟩ := map_eq_ok_iff.1 h
    exact map_eq_ok_iff.2 ⟨d, Document.compile_of_recased hfilters (hwindow config) hd, rfl⟩
  | keyValue =>
    obtain ⟨r, hr, rfl⟩ := map_eq_ok_iff.1 h
    exact map_eq_ok_iff.2 ⟨r, KeyValue.compile_of_recased hfilters (hwindow config) hr, rfl⟩

/-- Operators are the same in capitals and in small letters, from the query to
what is sent to the store.  Two filters that differ in the case of their
operator words, built in the store beside the words of a query, are both refused
or both taken in; and then each target compiles the one query to what it
compiles the other one to, if to anything. -/
theorem compile_blind_to_operator_case (c : Collection) (q : Query) (hq : Query.Reached c q)
    (s s' : Store) (id id' : WordId) (hs : q.store.Over s) (hs' : q.store.Over s')
    (hid : Loose q.store.size s id) (hid' : Loose q.store.size s' id')
    (hfilter : (s.read id).isFilter = true)
    (hword : Clause.filter.hasWord (s.read id).token = true)
    (hrecased : Recased (s.read id) (s'.read id')) :
    (({ q with store := s }.addTerm id).1 = .ok () ↔
      ({ q with store := s' }.addTerm id').1 = .ok ()) ∧
    (({ q with store := s }.addTerm id).1 = .ok () →
      ∀ (target : Target) (catalog : Catalog) (config : Config),
        (target.compile catalog config ({ q with store := s }.addTerm id).2).toOption =
          (target.compile catalog config ({ q with store := s' }.addTerm id').2).toOption) := by
  have howner : Clause.owner? (s.read id).token = some .filter := List.find?_cons_of_pos hword
  obtain ⟨haccepted, hadded⟩ :=
    Query.addTerm_recased hq hs hs' hid hid' hrecased hfilter howner
  refine ⟨haccepted, fun hok target catalog config => ?_⟩
  obtain ⟨hfilters, hterms⟩ := hadded hok
  have hflipped := (hfilters.imp fun _ _ h => h.symm).flip
  have hreached := hq.addTerm hs hid
  have hreached' := hq.addTerm hs' hid'
  refine toOption_eq_of_ok_iff fun out => ⟨fun h => ?_, fun h => ?_⟩
  · exact compile_of_recased hreached' hreached hflipped
      (fun kind hkind => (hterms kind hkind).symm) h
  · exact compile_of_recased hreached hreached' hfilters hterms h

/-- A filter for the orders of a customer, with the given words for its operators. -/
def ordersFilter (both equal either greater no key : String) : Term :=
  .call both [.call equal [.word "customerId", .word "ALFKI"],
    .call either [.call greater [.word "freight", .word "10"],
      .call no [.call key [.word "primaryIndex", .word "10248"]]]]

/-- The first orders that a filter is for. -/
def firstOrders (filter : Term) : Except Fault Unit × Query :=
  ((Query.new Catalog.Sample.orders).add "limit=3").2.plant filter

theorem compile_blind_to_operator_case_of_capitals :
    (firstOrders (ordersFilter "AND" "Eq" "oR" "GT" "NOT" "_Key")).1 = .ok () ∧
    (firstOrders (ordersFilter "and" "eq" "or" "gt" "not" "_key")).1 = .ok () ∧
    (keyValue.compile Catalog.Sample.northwind .standard
      (firstOrders (ordersFilter "AND" "Eq" "oR" "GT" "NOT" "_Key")).2).toOption.isSome = true ∧
    (keyValue.compile Catalog.Sample.northwind .standard
      (firstOrders (ordersFilter "AND" "Eq" "oR" "GT" "NOT" "_Key")).2).toOption =
    (keyValue.compile Catalog.Sample.northwind .standard
      (firstOrders (ordersFilter "and" "eq" "or" "gt" "not" "_key")).2).toOption := by
  have hq : Query.Reached Catalog.Sample.orders
    ((Query.new Catalog.Sample.orders).add "limit=3").2 := .add .new _
  have hfilter : (ordersFilter "AND" "Eq" "oR" "GT" "NOT" "_Key").isFilter = true := by
    decide +kernel
  have hword : Clause.filter.hasWord (ordersFilter "AND" "Eq" "oR" "GT" "NOT" "_Key").token =
      true := by
    decide +kernel
  have hrecased : Recased (ordersFilter "AND" "Eq" "oR" "GT" "NOT" "_Key")
      (ordersFilter "and" "eq" "or" "gt" "not" "_key") := by
    rw [Recased]
    decide +kernel
  have hok : (firstOrders (ordersFilter "AND" "Eq" "oR" "GT" "NOT" "_Key")).1 = .ok () :=
    eq_ok_of_toOption (by decide +kernel)
  have hsome : (keyValue.compile Catalog.Sample.northwind .standard
      (firstOrders (ordersFilter "AND" "Eq" "oR" "GT" "NOT" "_Key")).2).toOption.isSome = true := by
    decide +kernel
  unfold firstOrders at hok hsome ⊢
  -- from here on nothing of the query and the filters is to be computed any more
  generalize ordersFilter "AND" "Eq" "oR" "GT" "NOT" "_Key" = loud,
    ordersFilter "and" "eq" "or" "gt" "not" "_key" = quiet at hfilter hword hrecased hok hsome ⊢
  generalize ((Query.new Catalog.Sample.orders).add "limit=3").2 = q at hq hok hsome ⊢
  rw [Query.plant_eq] at hok hsome ⊢
  rw [Query.plant_eq]
  rw [← q.store.read_plant loud] at hfilter hword hrecased
  rw [← q.store.read_plant quiet] at hrecased
  have hloose (t : Term) := Store.loose_plant (Nat.le_refl q.store.size) t
  obtain ⟨haccepted, hcompiled⟩ := compile_blind_to_operator_case Catalog.Sample.orders q hq _ _ _ _
    (hq.over_plant loud) (hq.over_plant quiet) (hloose loud) (hloose quiet) hfilter hword hrecased
  exact ⟨hok, haccepted.1 hok, hsome, hcompiled hok _ _ _⟩

end Target
end ResourceQuery

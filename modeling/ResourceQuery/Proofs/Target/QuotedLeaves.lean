import ResourceQuery.Catalog.Sample
import ResourceQuery.Proofs.FilterText.Vocabulary
import ResourceQuery.Proofs.Target.BoundValues

set_option autoImplicit false

/-!
# Targets: quoted leaves in computed columns

A quoted leaf is a literal, and the expression of a computed column has no place
for literals: a leaf there names a column, or is a bare numeral or a bare `*`.
Where a quoted leaf stands for an expression, at whatever depth, the query is
refused by the relational target, and also by the document target unless the
leaf is a `*` right inside an aggregate, which is taken for the bare one.

The proof follows the place of the leaf inwards.  Each level of a compiled
expression is accounted for by the compiler (`exists_accounts`), and none of the
ways to account for a leaf admits a quoted one, but for the star.
-/

namespace ResourceQuery

namespace Dialog

/-- Where a term stands for an expression in another one: as the whole of it, as
an argument of an aggregate, or as a result of a choice, at any depth. -/
inductive Stands (u : Term) (there : Place) : Place → Term → Prop where
  | itself : Stands u there there u
  | argument {place : Place} {token : String} {quote : Option Quote} {arguments : List Term}
      {argument : Term} {function : Aggregate} (hfunction : Aggregate.ofWord? token = some function)
      (hmem : argument ∈ arguments) (h : Stands u there .argument argument) :
      Stands u there place (.node token quote arguments)
  | result {place : Place} {token : String} {quote : Option Quote} {arguments : List Term}
      {result : Term} (hif : Text.lower token = "if") (hmem : result ∈ arguments.tail)
      (h : Stands u there .result result) : Stands u there place (.node token quote arguments)

variable {σ C : Type} {d : Dialog σ C} {star : Bool → Term → Option (Expression C)}

theorem isWord_of_isNumeral {t : Term} (h : isNumeral t = true) : t.isWord = true :=
  (Bool.and_eq_true_iff.1 h).1

/-- A term that stands for itself, for whole rows or for a column has no arguments. -/
theorem Accounts.cases_node {place : Place} {token : String} {quote : Option Quote}
    {arguments : List Term} {e : Expression C}
    (hleaf : ∀ {inside : Bool} {t : Term} {e : Expression C}, star inside t = some e →
      t.isLeaf = true) (h : d.Accounts star place (.node token quote arguments) e)
    (hne : arguments ≠ []) :
    (∃ argument function e', arguments = [argument] ∧
        Aggregate.ofWord? token = some function ∧ d.Accounts star .argument argument e') ∨
      ∃ condition whenTrue whenFalse t f, arguments = [condition, whenTrue, whenFalse] ∧
        Text.lower token = "if" ∧ d.Accounts star .result whenTrue t ∧
        d.Accounts star .result whenFalse f := by
  cases h with
  | numeral h =>
    have hword := (Bool.and_eq_true_iff.1 (isWord_of_isNumeral h)).1
    exact absurd (List.isEmpty_iff.1 hword) hne
  | rows _ h => exact absurd (List.isEmpty_iff.1 (hleaf h)) hne
  | column _ _ => exact absurd rfl hne
  | aggregate hfunction h => exact .inl ⟨_, _, _, rfl, hfunction, h⟩
  | choice hif _ ht hf => exact .inr ⟨_, _, _, _, _, rfl, hif, ht, hf⟩

/-- A quoted leaf that stands for an expression is one that stands for whole rows. -/
theorem Stands.starred {u t : Term} {there place : Place} (h : Stands u there place t)
    (hleaf : ∀ {inside : Bool} {t : Term} {e : Expression C}, star inside t = some e →
      t.isLeaf = true) (hu : u.isLeaf = true) (hquoted : u.isQuoted = true) :
    ∀ {e : Expression C}, d.Accounts star place t e → ∃ e', star there.inside u = some e' := by
  induction h with
  | itself =>
    intro e haccounts
    cases haccounts with
    | numeral h =>
      have hbare := (Bool.and_eq_true_iff.1 (isWord_of_isNumeral h)).2
      rw [hquoted] at hbare
      cases hbare
    | rows _ h => exact ⟨_, h⟩
    | column _ _ => cases hquoted
    | aggregate _ _ => cases hu
    | choice _ _ _ _ => cases hu
  | argument hfunction hmem _ ih =>
    intro e haccounts
    rcases haccounts.cases_node hleaf (List.ne_nil_of_mem hmem) with
      ⟨argument, _, e', rfl, _, h⟩ | ⟨_, _, _, _, _, _, hif, _⟩
    · rw [List.mem_singleton.1 hmem] at ih
      exact ih h
    · exact absurd hif (lower_ne_of_aggregate hfunction)
  | result hif hmem _ ih =>
    intro e haccounts
    rcases haccounts.cases_node hleaf (List.ne_nil_of_mem (List.mem_of_mem_tail hmem)) with
      ⟨_, _, _, _, hfunction, _⟩ | ⟨_, whenTrue, whenFalse, _, _, rfl, _, ht, hf⟩
    · exact absurd hif (lower_ne_of_aggregate hfunction)
    · rcases List.mem_cons.1 hmem with rfl | hmem
      · exact ih ht
      · rw [List.mem_singleton.1 hmem] at ih
        exact ih hf

/-- Every computed column that is compiled is accounted for. -/
theorem exists_accounts {cs : List Computed} {es : List (Computed × Expression C)}
    {p p' : Progress σ} (h : d.computed star cs p = .ok (es, p')) {c : Computed} (hc : c ∈ cs) :
    ∃ e, d.Accounts star .whole c.expression e := by
  rw [← map_fst_computed h] at hc
  obtain ⟨e, he, rfl⟩ := List.mem_map.1 hc
  exact ⟨e.2, accounts_computed h e he⟩

end Dialog

open Dialog (Stands Place)

/-! ## Targets -/

/-- A relational statement has no quoted leaf for an expression. -/
theorem Sql.bare_of_stands {catalog : Catalog} {config : Config} {d : Dialect} {r : Request}
    {st : Statement} (h : compile catalog config d r = .ok st) {c : Computed}
    (hc : c ∈ r.computed) {leaf : Term} {place : Place}
    (hstands : Stands leaf place .whole c.expression) (hleaf : leaf.isLeaf = true) :
    leaf.isQuoted = false := by
  obtain ⟨pl, hplan, _⟩ := map_eq_ok_iff.1 h
  obtain ⟨plain, es, p₁, p₂, p₃, p₄, f, hcourse⟩ := plan_course hplan
  obtain ⟨e, haccounts⟩ := Dialog.exists_accounts hcourse.computed hc
  cases hquoted : leaf.isQuoted with
  | false => rfl
  | true =>
    obtain ⟨e', hstar⟩ := hstands.starred Expression.isLeaf_of_ofStar hleaf hquoted haccounts
    obtain ⟨_, hbare, _⟩ := Expression.ofStar_eq_some hstar
    rw [hquoted] at hbare
    cases hbare

/-- The only quoted leaves that a document query has for expressions are `*` inside aggregates. -/
theorem Document.star_of_stands {config : Config} {r : Request} {q : Query}
    (h : compile config r = .ok q) {c : Computed} (hc : c ∈ r.computed) {leaf : Term}
    {place : Place} (hstands : Stands leaf place .whole c.expression)
    (hleaf : leaf.isLeaf = true) (hquoted : leaf.isQuoted = true) :
    place = .argument ∧ leaf.token = "*" := by
  obtain ⟨pl, f, hplan, _⟩ := compile_ok h
  obtain ⟨plain, es, p₁, p₂, hcourse⟩ := plan_course hplan
  obtain ⟨e, haccounts⟩ := Dialog.exists_accounts hcourse.computed hc
  obtain ⟨e', hstar⟩ := hstands.starred Expression.isLeaf_of_ofStar hleaf hquoted haccounts
  obtain ⟨_, hinside, _, htoken⟩ := Expression.ofStar_eq_some hstar
  exact ⟨of_decide_eq_true hinside, htoken⟩

/-- A query with a computed column in which a quoted leaf stands for an
expression is compiled for no relational target, and for the document target
only if the leaf is a `*` that is the argument of an aggregate. -/
theorem Target.compile_refuses_quoted_leaf (catalog : Catalog) (config : Config) (q : Query)
    (t expression label leaf : Term) (place : Place) (ht : t ∈ q.terms .select)
    (has : t.hasToken "as" = true) (hchildren : t.children = [expression, label])
    (hstands : Stands leaf place .whole expression) (hleaf : leaf.isLeaf = true)
    (hquoted : leaf.isQuoted = true) :
    (∀ d compiled, (Target.sql d).compile catalog config q ≠ .ok compiled) ∧
    ∀ compiled, Target.document.compile catalog config q = .ok compiled →
      place = .argument ∧ leaf.token = "*" := by
  have hcomputed : (⟨expression, label⟩ : Computed) ∈ (Request.ofQuery q).computed := by
    refine List.mem_filterMap.2 ⟨t, ht, ?_⟩
    rw [Request.computed?, if_pos has, hchildren]
  refine ⟨fun d compiled h => ?_, fun compiled h => ?_⟩
  · obtain ⟨st, hst, _⟩ := map_eq_ok_iff.1 h
    have hbare := Sql.bare_of_stands hst hcomputed hstands hleaf
    rw [hquoted] at hbare
    cases hbare
  · obtain ⟨query, hquery, _⟩ := map_eq_ok_iff.1 h
    exact Document.star_of_stands hquery hcomputed hstands hleaf hquoted

/-- A choice with a quoted `*` as a result, and one inside an aggregate. -/
def quotedStars : Term :=
  .call "if" [.call "n" [.word "shipName"], .call "sum" [.leaf "*" (some .single)],
    .leaf "*" (some .single)]

theorem Target.compile_refuses_quoted_result : ∃ q,
    Query.ofString Catalog.Sample.orders "as(if(n(shipName),sum('*'),'*'),label)" = .ok q ∧
    q.terms .select = [.call "as" [quotedStars, .word "label"]] ∧
    (∀ d compiled, (Target.sql d).compile ⟨[]⟩ .standard q ≠ .ok compiled) ∧
    ∀ compiled, Target.document.compile ⟨[]⟩ .standard q ≠ .ok compiled := by
  have hread : (Query.ofString Catalog.Sample.orders
      "as(if(n(shipName),sum('*'),'*'),label)").toOption.map (fun q => q.terms .select) =
        some [.call "as" [quotedStars, .word "label"]] := by
    decide +kernel
  obtain ⟨q, hq, hselect⟩ := Option.map_eq_some_iff.1 hread
  have hstands : Stands (.leaf "*" (some .single)) .result .whole quotedStars :=
    .result (by decide +kernel) (List.mem_cons_of_mem _ List.mem_cons_self) .itself
  have hrefused := Target.compile_refuses_quoted_leaf ⟨[]⟩ .standard q
    (.call "as" [quotedStars, .word "label"]) quotedStars (.word "label") _ .result
    (hselect ▸ List.mem_singleton_self _) (by decide +kernel) rfl hstands rfl rfl
  refine ⟨q, eq_ok_of_toOption hq, hselect, hrefused.1, fun compiled h => ?_⟩
  cases (hrefused.2 compiled h).1

/-- The document target takes a quoted `*` inside an aggregate for the bare one. -/
theorem Target.compile_of_quoted_star : ∃ q query,
    Query.ofString Catalog.Sample.orders "as(count('*'),total)" = .ok q ∧
    q.terms .select =
      [.call "as" [.call "count" [.leaf "*" (some .single)], .word "total"]] ∧
    Stands (.leaf "*" (some .single)) .argument .whole
      (.call "count" [.leaf "*" (some .single)]) ∧
    Target.document.compile ⟨[]⟩ .standard q = .ok (.document query) ∧
    query.query = "SELECT COUNT(1) AS total FROM c OFFSET 0 LIMIT 100" := by
  have hread : (Query.ofString Catalog.Sample.orders "as(count('*'),total)").toOption.map (fun q =>
      (q.terms .select,
        (Document.compile .standard (.ofQuery q)).toOption.map Document.Query.query)) =
      some ([.call "as" [.call "count" [.leaf "*" (some .single)], .word "total"]],
        some "SELECT COUNT(1) AS total FROM c OFFSET 0 LIMIT 100") := by
    decide +kernel
  obtain ⟨q, hq, hparts⟩ := Option.map_eq_some_iff.1 hread
  obtain ⟨hselect, htext⟩ := Prod.mk.inj hparts
  obtain ⟨query, hquery, htext⟩ := Option.map_eq_some_iff.1 htext
  exact ⟨q, query, eq_ok_of_toOption hq, hselect,
    .argument (by decide +kernel : Aggregate.ofWord? "count" = some .count)
      (List.mem_singleton_self _) .itself,
    map_eq_ok_iff.2 ⟨query, eq_ok_of_toOption hquery, rfl⟩, htext⟩

end ResourceQuery

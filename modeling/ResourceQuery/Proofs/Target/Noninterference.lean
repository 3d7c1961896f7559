import ResourceQuery.Proofs.Query.Paging
import ResourceQuery.Proofs.Statement.TwoRuns
import ResourceQuery.Proofs.Target.Congruence

set_option autoImplicit false

/-!
# Targets: literals stay out of the text

Two requests that differ in the literals of their filters alone are compiled to
the same text, and values are bound for the same columns.

This is noninterference in the usual form: two runs that start alike stay alike,
where *alike* leaves open what is bound.  The proof for each target is that its
own steps are oblivious of literals; all else is `Build.Together`.
-/

namespace ResourceQuery

open Build (Together)
open Term (alike AlikeValue)

/-! ## Relational targets -/

namespace Sql

theorem oblivious_dialog (catalog : Catalog) (root : Collection) (limit : Nat) :
    (dialog catalog root limit).Oblivious where
  resolve path := by
    refine .bind (.lookup_self _) fun resolved resolved' hresolved => ?_
    subst hresolved
    refine .bind .get fun p p' hp => ?_
    rw [hp.scope_eq]
    refine .bind (.lookup_self _) fun found found' hfound => ?_
    subst hfound
    exact .bind (.set ⟨rfl, hp.columns_eq⟩) fun _ _ _ => .pure rfl
  test op column path text text' _ := by
    exact .bind (.value path _ _) fun k k' hk => .pure (by rw [hk])
  blankness isBlank column path := .pure rfl

/-- The plans of requests that differ in the literals of their filters are the
same, up to the values. -/
theorem plan_alike {catalog : Catalog} {config : Config} {r : Request} {filters : List Term}
    {page : Paging} {p p' : Plan}
    (hfilters : List.Forall₂ (fun t t' => alike t t' = true) r.filters filters)
    (hwindow : page.window config = r.page.window config)
    (h : plan catalog config r = .ok p)
    (h' : plan catalog config { r with filters, page } = .ok p') :
    p' = { p with values := p'.values } ∧ p.values.map Prod.fst = p'.values.map Prod.fst := by
  have hd := oblivious_dialog catalog r.collection config.maxRelationshipDepth.toNat
  have hparts : Together Eq
      (parts (dialog catalog r.collection config.maxRelationshipDepth.toNat) r)
      (parts (dialog catalog r.collection config.maxRelationshipDepth.toNat)
        { r with filters, page }) :=
    parts_congr Together.congruence hd.resolve hd.predicate_self r (hd.predicates hfilters)
  unfold plan at h h'
  split at h
  · obtain ⟨_, hthrow, _⟩ := bind_eq_ok_iff.1 h
    cases hthrow
  · next hafter =>
    rw [if_neg hafter] at h'
    obtain ⟨⟨result, progress⟩, hrun, h⟩ := bind_eq_ok_iff.1 h
    obtain ⟨⟨result', progress'⟩, hrun', h'⟩ := bind_eq_ok_iff.1 h'
    obtain rfl := pure_eq_ok_iff.1 h
    obtain rfl := pure_eq_ok_iff.1 h'
    obtain ⟨rfl, hscope, hcolumns⟩ := hparts ⟨rfl, rfl⟩ hrun hrun'
    exact ⟨by simp only [hscope, hwindow], hcolumns⟩

/-- Requests that differ in the literals of their filters have the same
statement, up to the values. -/
theorem compile_alike {catalog : Catalog} {config : Config} {d : Dialect} {r : Request}
    {filters : List Term} {page : Paging} {st st' : Statement}
    (hfilters : List.Forall₂ (fun t t' => alike t t' = true) r.filters filters)
    (hwindow : page.window config = r.page.window config)
    (h : compile catalog config d r = .ok st)
    (h' : compile catalog config d { r with filters, page } = .ok st') :
    st' = { st with values := st'.values } ∧
      st.values.map Prod.fst = st'.values.map Prod.fst := by
  obtain ⟨p, hp, hst⟩ := bind_eq_ok_iff.1 h
  obtain ⟨p', hp', hst'⟩ := bind_eq_ok_iff.1 h'
  obtain rfl := pure_eq_ok_iff.1 hst
  obtain rfl := pure_eq_ok_iff.1 hst'
  obtain ⟨hplan, hcolumns⟩ := plan_alike hfilters hwindow hp hp'
  refine ⟨?_, hcolumns⟩
  rw [hplan]
  rfl

end Sql

/-! ## The document target -/

namespace Document

theorem oblivious_dialog (root : Collection) : (dialog root).Oblivious where
  resolve _ := .lookup_self _
  test := functions.together_test
  blankness _ _ _ := .pure rfl

/-- Requests that differ in the literals of their filters have the same query,
up to the values. -/
theorem compile_alike {config : Config} {r : Request} {filters : List Term} {page : Paging}
    {q q' : Query} (hfilters : List.Forall₂ (fun t t' => alike t t' = true) r.filters filters)
    (hwindow : page.window config = r.page.window config)
    (h : compile config r = .ok q) (h' : compile config { r with filters, page } = .ok q') :
    q.query = q'.query ∧ q.countQuery = q'.countQuery ∧
      q.values.map Prod.fst = q'.values.map Prod.fst := by
  have hd := oblivious_dialog r.collection
  have hplan : Together Eq (plan (dialog r.collection) r)
      (plan (dialog r.collection) { r with filters, page }) :=
    plan_congr Together.congruence hd.resolve hd.predicate_self r (hd.predicates hfilters)
  obtain ⟨⟨p, progress⟩, hrun, h⟩ := bind_eq_ok_iff.1 h
  obtain ⟨⟨p', progress'⟩, hrun', h'⟩ := bind_eq_ok_iff.1 h'
  obtain ⟨_, _, h⟩ := bind_eq_ok_iff.1 h
  obtain ⟨_, _, h'⟩ := bind_eq_ok_iff.1 h'
  obtain rfl := pure_eq_ok_iff.1 h
  obtain rfl := pure_eq_ok_iff.1 h'
  obtain ⟨rfl, _, hcolumns⟩ := hplan ⟨rfl, rfl⟩ hrun hrun'
  exact ⟨by simp only [hwindow], rfl, hcolumns⟩

end Document

/-! ## The key-value target -/

namespace KeyValue

theorem oblivious_dialog (root : Collection) : (dialog root).Oblivious where
  resolve path := by
    refine .bind (.lookup_self _) fun found found' hfound => ?_
    subst hfound
    refine .bind .get fun p p' hp => ?_
    dsimp only
    rw [hp.scope_eq]
    exact .bind (.set ⟨rfl, hp.columns_eq⟩) fun _ _ _ => .pure rfl
  test := functions.together_test
  blankness isBlank column path := .marked path _ _ _

variable {d : Dialog Names Column} {t t' : Term}

/-- Whether a term fixes a key does not depend on its literals. -/
theorem fixesKey_eq_of_alike (c : Collection) (p : Property) (operators : List Operator)
    (h : alike t t' = true) : fixesKey c p operators t = fixesKey c p operators t' := by
  unfold fixesKey
  rw [Term.isQuoted, Term.isQuoted, Term.quote_eq_of_alike h, Term.token_eq_of_alike h,
    Term.column_eq_of_alike h]
  rcases Term.value_of_alike h with ⟨v, v', hv, hv', halike⟩ | ⟨fault, fault', hv, hv'⟩
  · obtain ⟨hleaf, hnull, hpattern⟩ := halike.sameKind
    rw [hv, hv']
    cases t'.column with
    | ok path => simp only [hleaf, hnull, hpattern]
    | error _ => rfl
  · rw [hv, hv']
    cases t'.column <;> rfl

/-- A term of a key condition binds its literal as a comparison does. -/
theorem together_keyPart (hd : d.Oblivious) (h : alike t t' = true) :
    Together Eq (keyPart d t) (keyPart d t') := by
  unfold keyPart
  refine .bind (Dialog.together_column h) fun path path' hpath => ?_
  subst hpath
  refine .bind (R := fun _ _ => True) (.lookup fun _ _ _ _ => trivial) fun v v' _ => ?_
  refine .bind (hd.resolve path) fun found found' hfound => ?_
  subst hfound
  rw [Term.token_eq_of_alike h]
  have hprefix : Together (σ := Names) Eq
      (do
        let text ← Build.lookup (v.literal path)
        let marker ← Build.bind path (.text text)
        return Predicate.text .startsWith false found.1 marker)
      (do
        let text ← Build.lookup (v'.literal path)
        let marker ← Build.bind path (.text text)
        return Predicate.text .startsWith false found.1 marker) := by
    exact .bind (R := fun _ _ => True) (.lookup fun _ _ _ _ => trivial) fun _ _ _ =>
      .marked path _ _ _
  obtain ⟨c, property⟩ := found
  dsimp only
  split
  · exact Dialog.together_bound path property v v' _
  · exact hprefix

/-- Filter terms that were found in two lists at the same place. -/
def FoundAlike (found found' : Option (Term × Nat)) : Prop :=
  (found = none ∧ found' = none) ∨
    ∃ t t' i, found = some (t, i) ∧ found' = some (t', i) ∧ alike t t' = true

theorem forall₂_zipIdx {R : Term → Term → Prop} {ts ts' : List Term} (h : List.Forall₂ R ts ts')
    (n : Nat) :
    List.Forall₂ (fun x x' => R x.1 x'.1 ∧ x.2 = x'.2) (ts.zipIdx n) (ts'.zipIdx n) := by
  induction h generalizing n with
  | nil => exact .nil
  | cons ht _ ih => exact .cons ⟨ht, rfl⟩ (ih (n + 1))

/-- A test that does not tell related terms apart finds related ones at the same
place, or none in either list. -/
theorem rel_firstWhere {R : Term → Term → Prop} {ts ts' : List Term} {test : Nat → Term → Bool}
    (h : List.Forall₂ R ts ts') (htest : ∀ i t t', R t t' → test i t = test i t') :
    Option.Rel (fun x x' => R x.1 x'.1 ∧ x.2 = x'.2) (firstWhere test ts)
      (firstWhere test ts') := by
  have hplaces := forall₂_zipIdx h 0
  unfold firstWhere
  generalize ts.zipIdx = places, ts'.zipIdx = places' at hplaces ⊢
  induction hplaces with
  | nil => exact .none
  | @cons x x' xs xs' hx _ ih =>
    obtain ⟨t, i⟩ := x
    obtain ⟨t', i'⟩ := x'
    obtain ⟨hrelated, rfl⟩ : R t t' ∧ i = i' := hx
    rw [List.find?_cons, List.find?_cons]
    dsimp only
    rw [← htest i t t' hrelated]
    cases test i t with
    | true => exact .some ⟨hrelated, rfl⟩
    | false => exact ih

theorem foundAlike_firstWhere {ts ts' : List Term} {test : Nat → Term → Bool}
    (h : List.Forall₂ (fun t t' => alike t t' = true) ts ts')
    (htest : ∀ i t t', alike t t' = true → test i t = test i t') :
    FoundAlike (firstWhere test ts) (firstWhere test ts') := by
  have hfound := rel_firstWhere h htest
  generalize firstWhere test ts = found, firstWhere test ts' = found' at hfound ⊢
  cases hfound with
  | none => exact .inl ⟨rfl, rfl⟩
  | @some x x' hx =>
    obtain ⟨t, i⟩ := x
    obtain ⟨t', i'⟩ := x'
    obtain ⟨halike, rfl⟩ : alike t t' = true ∧ i = i' := hx
    exact .inr ⟨t, t', i, rfl, rfl, halike⟩

theorem together_chooseKey (hd : d.Oblivious) (c : Collection) {filters filters' : List Term}
    (hfilters : List.Forall₂ (fun t t' => alike t t' = true) filters filters') (index : Index)
    (sortKey : Option Property) {hash hash' : Term} (hhash : alike hash hash' = true)
    (hashAt : Nat) :
    Together Eq (chooseKey d c filters index sortKey hash hashAt)
      (chooseKey d c filters' index sortKey hash' hashAt) := by
  unfold chooseKey
  refine .bind (together_keyPart hd hhash) fun first first' hfirst => ?_
  subst hfirst
  have hrange : FoundAlike
      (sortKey.bind fun p => firstWhere
        (fun i t => i ≠ hashAt && fixesKey c p sortKeyOperators t) filters)
      (sortKey.bind fun p => firstWhere
        (fun i t => i ≠ hashAt && fixesKey c p sortKeyOperators t) filters') := by
    cases sortKey with
    | none => exact .inl ⟨rfl, rfl⟩
    | some p =>
      rw [Option.bind_some, Option.bind_some]
      refine foundAlike_firstWhere hfilters fun i t t' halike => ?_
      rw [fixesKey_eq_of_alike c p sortKeyOperators halike]
  dsimp only
  rcases hrange with ⟨hnone, hnone'⟩ | ⟨range, range', i, hsome, hsome', halike⟩
  · rw [hnone, hnone']
    exact .pure rfl
  · rw [hsome, hsome']
    exact .bind (together_keyPart hd halike) fun second second' hsecond => .pure (by rw [hsecond])

/-- The key conditions are taken from the same places, or there are none. -/
theorem together_keyCondition (hd : d.Oblivious) (c : Collection) {filters filters' : List Term}
    (hfilters : List.Forall₂ (fun t t' => alike t t' = true) filters filters')
    (indexes : List Index) :
    Together Eq (keyCondition d c filters indexes) (keyCondition d c filters' indexes) := by
  induction indexes with
  | nil => exact .pure rfl
  | cons index indexes ih =>
    unfold keyCondition
    refine .bind (.lookup_self _) fun properties properties' hproperties => ?_
    subst hproperties
    cases properties with
    | nil => exact ih
    | cons hash others =>
      dsimp only
      have hfirst : FoundAlike
          (firstWhere (fun _ t => fixesKey c hash [.comparison .eq] t) filters)
          (firstWhere (fun _ t => fixesKey c hash [.comparison .eq] t) filters') :=
        foundAlike_firstWhere hfilters fun _ _ _ => fixesKey_eq_of_alike c hash _
      rcases hfirst with ⟨hnone, hnone'⟩ | ⟨t, t', i, hsome, hsome', halike⟩
      · rw [hnone, hnone']
        exact ih
      · rw [hsome, hsome']
        exact .bind (together_chooseKey hd c hfilters index others.head? halike i)
          fun key key' hkey => .pure (by rw [hkey])

/-- What is left of related terms is related. -/
theorem forall₂_remaining {R : Term → Term → Prop} {filters filters' : List Term}
    (h : List.Forall₂ R filters filters') (consumed : List Nat) :
    List.Forall₂ R (remaining filters consumed) (remaining filters' consumed) := by
  have hplaces := forall₂_zipIdx h 0
  unfold remaining
  generalize filters.zipIdx = places, filters'.zipIdx = places' at hplaces ⊢
  induction hplaces with
  | nil => exact .nil
  | @cons x x' xs xs' hx _ ih =>
    simp only [List.filter_cons, ← hx.2]
    split
    · exact .cons hx.1 ih
    · exact ih

/-- Requests that differ in the literals of their filters read the table in the
same way, up to the values. -/
theorem compile_alike {config : Config} {r : ResourceQuery.Request} {filters : List Term}
    {page : Paging} {out out' : Request}
    (hfilters : List.Forall₂ (fun t t' => alike t t' = true) r.filters filters)
    (h : compile config r = .ok out) (h' : compile config { r with filters, page } = .ok out') :
    out.operation = out'.operation ∧ out.index = out'.index ∧
      out.keyCondition = out'.keyCondition ∧ out.filter = out'.filter ∧
      out.projection = out'.projection ∧ out.names = out'.names ∧
      out.values.map Prod.fst = out'.values.map Prod.fst := by
  have hd := oblivious_dialog r.collection
  have hplan : Together Eq (plan (dialog r.collection) r)
      (plan (dialog r.collection) { r with filters, page }) := by
    refine .bind (Dialog.columns_congr Together.congruence hd.resolve _)
      fun columns columns' hcolumns => ?_
    refine .bind (together_keyCondition hd r.collection hfilters _) fun key key' hkey => ?_
    subst hkey
    refine .bind (hd.predicates (forall₂_remaining hfilters _)) fun fs fs' hfs => ?_
    exact .pure (by rw [hcolumns, hfs])
  obtain ⟨_, _, h⟩ := bind_eq_ok_iff.1 h
  obtain ⟨_, _, h'⟩ := bind_eq_ok_iff.1 h'
  obtain ⟨⟨p, progress⟩, hrun, h⟩ := bind_eq_ok_iff.1 h
  obtain ⟨⟨p', progress'⟩, hrun', h'⟩ := bind_eq_ok_iff.1 h'
  obtain ⟨_, _, h⟩ := bind_eq_ok_iff.1 h
  obtain ⟨_, _, h'⟩ := bind_eq_ok_iff.1 h'
  obtain ⟨_, _, h⟩ := bind_eq_ok_iff.1 h
  obtain ⟨_, _, h'⟩ := bind_eq_ok_iff.1 h'
  obtain rfl := pure_eq_ok_iff.1 h
  obtain rfl := pure_eq_ok_iff.1 h'
  obtain ⟨rfl, hscope, hcolumns⟩ := hplan ⟨rfl, rfl⟩ hrun hrun'
  exact ⟨rfl, rfl, rfl, rfl, rfl, by simp only [hscope], hcolumns⟩

end KeyValue

/-! ## Queries -/

/-- Queries whose terms are the same up to the literals of their filters make
requests that are the same up to these literals. -/
theorem Request.ofQuery_alike {c : Collection} {q q' : Query} (hq : Query.Reached c q)
    (hq' : Query.Reached c q') (hterms : ∀ kind, kind ≠ .filter → q.terms kind = q'.terms kind) :
    ofQuery q' = { ofQuery q with filters := q'.terms .filter, page := q'.page } ∧
      ∀ config, q'.page.window config = q.page.window config := by
  have hagree := hq.agree hq' (hterms .page (by decide))
  have hafter : q'.page.after.map (fun id => (q'.store.read id).children) =
      q.page.after.map (fun id => (q.store.read id).children) := by
    have h := congrArg (Option.map Term.children) hagree.after_eq
    rw [Option.map_map, Option.map_map] at h
    exact h.symm
  refine ⟨?_, fun config => (hagree.window_eq config).symm⟩
  simp only [ofQuery, hafter, hq.paged.collection_eq, hq'.paged.collection_eq,
    hterms .order (by decide), hterms .group (by decide), hterms .select (by decide)]

/-- What is sent to the store is the same, up to the values. -/
def Compiled.SameText : Compiled → Compiled → Prop
  | .sql st, .sql st' => st.sql = st'.sql ∧ st.countSql = st'.countSql
  | .document q, .document q' => q.query = q'.query ∧ q.countQuery = q'.countQuery
  | .keyValue r, .keyValue r' =>
    r.operation = r'.operation ∧ r.index = r'.index ∧ r.keyCondition = r'.keyCondition ∧
      r.filter = r'.filter ∧ r.projection = r'.projection ∧ r.names = r'.names
  | _, _ => False

/-- Literals of filters never get into the text: two queries against a
collection whose terms are the same up to the literals of their filters are
compiled to the same text, and to values for the same columns in the same
order. -/
theorem Target.compile_text_blind_to_literals (target : Target) (catalog : Catalog)
    (config : Config) (c : Collection) (q q' : Query) (out out' : Compiled)
    (hq : Query.Reached c q) (hq' : Query.Reached c q')
    (hfilters : Term.alikeAll (q.terms .filter) (q'.terms .filter) = true)
    (hterms : ∀ kind, kind ≠ .filter → q.terms kind = q'.terms kind)
    (h : target.compile catalog config q = .ok out)
    (h' : target.compile catalog config q' = .ok out') :
    out.SameText out' ∧ out.values.length = out'.values.length ∧
      out.values.map Prod.fst = out'.values.map Prod.fst := by
  obtain ⟨hrequest, hwindow⟩ := Request.ofQuery_alike hq hq' hterms
  have halike := Term.forall₂_of_alikeAll hfilters
  suffices htext : out.SameText out' ∧ out.values.map Prod.fst = out'.values.map Prod.fst by
    refine ⟨htext.1, ?_, htext.2⟩
    simpa using congrArg List.length htext.2
  unfold compile at h h'
  rw [hrequest] at h'
  cases target with
  | sql dialect =>
    obtain ⟨st, hst, rfl⟩ := map_eq_ok_iff.1 h
    obtain ⟨st', hst', rfl⟩ := map_eq_ok_iff.1 h'
    obtain ⟨hsame, hcolumns⟩ := Sql.compile_alike halike (hwindow config) hst hst'
    exact ⟨⟨by rw [hsame], by rw [hsame]⟩, hcolumns⟩
  | document =>
    obtain ⟨d, hd, rfl⟩ := map_eq_ok_iff.1 h
    obtain ⟨d', hd', rfl⟩ := map_eq_ok_iff.1 h'
    obtain ⟨hquery, hcount, hcolumns⟩ := Document.compile_alike halike (hwindow config) hd hd'
    exact ⟨⟨hquery, hcount⟩, hcolumns⟩
  | keyValue =>
    obtain ⟨r, hr, rfl⟩ := map_eq_ok_iff.1 h
    obtain ⟨r', hr', rfl⟩ := map_eq_ok_iff.1 h'
    obtain ⟨hoperation, hindex, hkey, hfilter, hprojection, hnames, hcolumns⟩ :=
      KeyValue.compile_alike halike hr hr'
    exact ⟨⟨hoperation, hindex, hkey, hfilter, hprojection, hnames⟩, hcolumns⟩

/-- A query for things by literals. -/
def Query.byLiterals (kind start number : String) : Query :=
  (((new things).add s!"eq(type,{kind})").2.add s!"or(sw(name,{start}),in(id,{number},2))").2.add
    "limit=5" |>.2

theorem Target.compile_text_of_hostile_literals : ∃ out out',
    keyValue.compile ⟨[]⟩ .standard (.byLiterals "x" "ab" "1") = .ok out ∧
      keyValue.compile ⟨[]⟩ .standard (.byLiterals "\"' OR '1'='1\"" "\":val1) --\"" "\"3\"") =
        .ok out' ∧
      out'.values = [("type", .text "' OR '1'='1"), ("name", .text ":val1) --"), ("id", .int 3),
        ("id", .int 2)] ∧
      out.SameText out' ∧ out.values.length = out'.values.length ∧
      out.values.map Prod.fst = out'.values.map Prod.fst := by
  have hout : (keyValue.compile ⟨[]⟩ .standard (.byLiterals "x" "ab" "1")).toOption.isSome := by
    decide +kernel
  have hout' : (keyValue.compile ⟨[]⟩ .standard (.byLiterals "\"' OR '1'='1\"" "\":val1) --\""
      "\"3\"")).toOption.map Compiled.values = some [("type", .text "' OR '1'='1"),
        ("name", .text ":val1) --"), ("id", .int 3), ("id", .int 2)] := by
    decide +kernel
  obtain ⟨out, hout⟩ := Option.isSome_iff_exists.1 hout
  obtain ⟨out', hout', hvalues⟩ := Option.map_eq_some_iff.1 hout'
  have hreached (kind start number : String) :
      Query.Reached Query.things (.byLiterals kind start number) :=
    .add (.add (.add .new _) _) _
  have hterms : Term.alikeAll ((Query.byLiterals "x" "ab" "1").terms .filter)
      ((Query.byLiterals "\"' OR '1'='1\"" "\":val1) --\"" "\"3\"").terms .filter) = true ∧
      ∀ kind ∈ [Clause.page, .order, .group, .select], (Query.byLiterals "x" "ab" "1").terms kind =
        (Query.byLiterals "\"' OR '1'='1\"" "\":val1) --\"" "\"3\"").terms kind := by
    decide +kernel
  refine ⟨out, out', eq_ok_of_toOption hout, eq_ok_of_toOption hout', hvalues, ?_⟩
  refine compile_text_blind_to_literals .keyValue ⟨[]⟩ .standard Query.things _ _ out out'
    (hreached _ _ _) (hreached _ _ _) hterms.1 (fun kind hkind => hterms.2 kind ?_)
    (eq_ok_of_toOption hout) (eq_ok_of_toOption hout')
  cases kind with
  | filter => exact absurd rfl hkind
  | page | order | group | select => decide

end ResourceQuery

import ResourceQuery.Proofs.Fragment.Concatenation
import ResourceQuery.Proofs.Query.Contribution

set_option autoImplicit false

/-!
# Query: query strings one behind the other

A query string gives the terms that its fragments contribute, each by itself. So
the terms of two query strings that are joined are those of the one and those of
the other, and fragments that contribute to different clauses may change places.

What each fragment contributes depends on the fragment alone
(`Proofs/Query/Contribution`), so joining query strings is a matter of how they
are divided: a query string without a fault ends outside quotes.
-/

namespace ResourceQuery.Query

variable {c : Collection} {text : String} {q : Query}

/-- The terms of a query string are those that its fragments contribute; its
fault is that of the first fragment at fault. -/
theorem terms_ofString (c : Collection) (text : String) :
    terms <$> ofString c text =
      (fun shares kind => shares.flatMap fun ts => ts kind) <$>
        (Fragment.split text).mapM (fragmentContribution c) := by
  have hterms : ∀ kind, (new c).terms kind = [] := fun kind => by cases kind <;> rfl
  rw [ofString, terms_addAll _ .new]
  simp only [hterms, List.nil_append]

theorem Reached.addAll {fragments : List String} : ∀ {q q' : Query}, Reached c q →
    q.addAll fragments = .ok q' → Reached c q' := by
  induction fragments with
  | nil =>
    intro q q' hq h
    cases h
    exact hq
  | cons fragment fragments ih =>
    intro q q' hq h
    have hnext := hq.add fragment
    rw [Query.addAll] at h
    rcases hadd : q.add fragment with ⟨fault | _, q₁⟩
    · rw [hadd] at h
      cases h
    · rw [hadd] at h hnext
      exact ih hnext h

theorem reached_ofString (h : ofString c text = .ok q) : Reached c q := Reached.new.addAll h

theorem exists_shares (h : ofString c text = .ok q) :
    ∃ shares, (Fragment.split text).mapM (fragmentContribution c) = .ok shares ∧
      ∀ kind, q.terms kind = shares.flatMap fun ts => ts kind := by
  have hterms := terms_ofString c text
  rw [h] at hterms
  obtain ⟨shares, hshares, hsame⟩ := map_eq_ok_iff.1 hterms.symm
  exact ⟨shares, hshares, fun kind => (congrFun hsame kind).symm⟩

/-- A query string whose fragments all contribute has no fault. -/
theorem exists_ofString {shares : List (Clause → List Term)}
    (h : (Fragment.split text).mapM (fragmentContribution c) = .ok shares) :
    ∃ q, ofString c text = .ok q ∧ ∀ kind, q.terms kind = shares.flatMap fun ts => ts kind := by
  have hterms := terms_ofString c text
  rw [h] at hterms
  obtain ⟨q, hq, hsame⟩ := map_eq_ok_iff.1 hterms
  exact ⟨q, hq, congrFun hsame⟩

/-- The fragments of a query string without a fault can be read. -/
theorem readable_of_shares {shares : List (Clause → List Term)}
    (h : (Fragment.split text).mapM (fragmentContribution c) = .ok shares) :
    ∀ f ∈ Fragment.split text, ∃ t, Fragment.parse f = .ok t := by
  intro f hf
  obtain ⟨ts, hts⟩ := exists_of_mem_mapM h f hf
  obtain ⟨t, ht, _⟩ := bind_eq_ok_iff.1 hts
  exact ⟨t, ht⟩

/-- Readable fragments of a query string, in whatever order they are joined. -/
theorem split_intercalate (h : ∀ f ∈ Fragment.split text, ∃ t, Fragment.parse f = .ok t)
    {fragments : List String} (hfragments : fragments ⊆ Fragment.split text) :
    Fragment.split ("&".intercalate fragments) = fragments := by
  refine Fragment.split_join fun f hf => ?_
  have hmem := hfragments hf
  obtain ⟨t, ht⟩ := h f hmem
  exact ⟨Fragment.crosses_of_parse (Fragment.whole_of_mem_split hmem) ht,
    Fragment.trimmed_of_mem_split hmem⟩

/-- The query of a single fragment is what the fragment contributes. -/
theorem contribution_of_split {f : String} (hsplit : Fragment.split text = [f])
    (hq : ofString c text = .ok q) : fragmentContribution c f = .ok q.terms := by
  obtain ⟨shares, hshares, hterms⟩ := exists_shares hq
  rw [hsplit] at hshares
  obtain ⟨ts, rest, hts, hrest, rfl⟩ := mapM_cons_ok_iff.1 hshares
  rw [List.mapM_nil, pure_eq_ok_iff] at hrest
  subst hrest
  rw [hts]
  refine congrArg Except.ok (funext fun kind => ?_)
  rw [hterms, List.flatMap_singleton]

/-- What a fragment of a query string contributes is the query that it is by itself. -/
theorem terms_fragment (h : ∀ f ∈ Fragment.split text, ∃ t, Fragment.parse f = .ok t)
    {f : String} (hf : f ∈ Fragment.split text) (hq : ofString c f = .ok q) :
    fragmentContribution c f = .ok q.terms := by
  have hsplit := split_intercalate h (List.cons_subset.2 ⟨hf, List.nil_subset _⟩)
  rw [String.intercalate_singleton] at hsplit
  exact contribution_of_split hsplit hq

/-- Two query strings without a fault, joined, have none, and each clause has
the terms of the one and then those of the other.  Two fragments in a row that
contribute to different clauses may change places. -/
theorem ofString_composes (c : Collection) :
    (∀ (text text' : String) (q q' : Query), ofString c text = .ok q → ofString c text' = .ok q' →
      ∃ both, ofString c (text ++ "&" ++ text') = .ok both ∧
        ∀ kind, both.terms kind = q.terms kind ++ q'.terms kind) ∧
    ∀ (text : String) (q : Query) (before after : List String) (f g : String) (qf qg : Query),
      ofString c text = .ok q → Fragment.split text = before ++ f :: g :: after →
      ofString c f = .ok qf → ofString c g = .ok qg →
      (∀ kind, qf.terms kind = [] ∨ qg.terms kind = []) →
      Fragment.split ("&".intercalate (before ++ g :: f :: after)) = before ++ g :: f :: after ∧
        ∀ text', Fragment.split text' = before ++ g :: f :: after →
          ∃ q', ofString c text' = .ok q' ∧ ∀ kind, q'.terms kind = q.terms kind := by
  refine ⟨fun text text' q q' hq hq' => ?_,
    fun text q before after f g qf qg hq hsplit hqf hqg hapart => ?_⟩
  · obtain ⟨shares, hshares, hterms⟩ := exists_shares hq
    obtain ⟨shares', hshares', hterms'⟩ := exists_shares hq'
    have hboth : (Fragment.split (text ++ "&" ++ text')).mapM (fragmentContribution c) =
        .ok (shares ++ shares') := by
      rw [Fragment.split_append (readable_of_shares hshares)]
      exact mapM_append_ok_iff.2 ⟨shares, shares', hshares, hshares', rfl⟩
    obtain ⟨both, hread, hsame⟩ := exists_ofString hboth
    refine ⟨both, hread, fun kind => ?_⟩
    rw [hsame, hterms, hterms', List.flatMap_append]
  · obtain ⟨shares, hshares, hterms⟩ := exists_shares hq
    have hreadable := readable_of_shares hshares
    have hf := terms_fragment hreadable (by rw [hsplit]; simp) hqf
    have hg := terms_fragment hreadable (by rw [hsplit]; simp) hqg
    rw [hsplit] at hshares
    obtain ⟨first, more, hfirst, hmore, rfl⟩ := mapM_append_ok_iff.1 hshares
    obtain ⟨tf, rest, htf, hrest, rfl⟩ := mapM_cons_ok_iff.1 hmore
    obtain ⟨tg, last, htg, hlast, rfl⟩ := mapM_cons_ok_iff.1 hrest
    obtain rfl : qf.terms = tf := Except.ok.inj (hf.symm.trans htf)
    obtain rfl : qg.terms = tg := Except.ok.inj (hg.symm.trans htg)
    refine ⟨split_intercalate hreadable ?_, fun text' hsplit' => ?_⟩
    · rw [hsplit]
      exact ((List.Perm.swap f g after).append_left before).subset
    · have hswapped : (Fragment.split text').mapM (fragmentContribution c) =
          .ok (first ++ qg.terms :: qf.terms :: last) := by
        rw [hsplit']
        exact mapM_append_ok_iff.2 ⟨first, _, hfirst,
          mapM_cons_ok_iff.2 ⟨_, _, hg, mapM_cons_ok_iff.2 ⟨_, _, hf, hlast, rfl⟩, rfl⟩, rfl⟩
      obtain ⟨q', hq', hsame⟩ := exists_ofString hswapped
      refine ⟨q', hq', fun kind => ?_⟩
      rw [hsame, hterms]
      simp only [List.flatMap_append, List.flatMap_cons]
      rcases hapart kind with hnone | hnone <;> rw [hnone] <;> simp only [List.nil_append]

/-- A sum, and a filter with an `&` in quotes. -/
def summed : String := "sum(id) & name='a&b'"

/-- A row by its key, and the rows asked for. -/
def looked : String := " _key(byId,x~1)&limit=3"

theorem ofString_composes_of_things :
    (∃ q q' both, ofString things summed = .ok q ∧ ofString things looked = .ok q' ∧
      ofString things (summed ++ "&" ++ looked) = .ok both ∧
      (∀ kind, both.terms kind = q.terms kind ++ q'.terms kind) ∧
      (both.terms .filter).map Term.render =
        ["eq(name,'a&b')", "eq(type,x)", "eq(id,1)"]) ∧
    ∃ q q', ofString things summed = .ok q ∧ ofString things "name='a&b'&sum(id)" = .ok q' ∧
      ∀ kind, q'.terms kind = q.terms kind := by
  have hsome : ∀ text, (ofString things text).toOption.isSome = true →
      ∃ q, ofString things text = .ok q := by
    intro text h
    obtain ⟨q, hq⟩ := Option.isSome_iff_exists.1 h
    exact ⟨q, eq_ok_of_toOption hq⟩
  obtain ⟨q, hq⟩ := hsome summed (by decide +kernel)
  obtain ⟨q', hq'⟩ := hsome looked (by decide +kernel)
  obtain ⟨both, hboth, hterms⟩ := (ofString_composes things).1 summed looked q q' hq hq'
  have hfilter : (ofString things (summed ++ "&" ++ looked)).toOption.map
      (fun q => (q.terms .filter).map Term.render) =
        some ["eq(name,'a&b')", "eq(type,x)", "eq(id,1)"] := by decide +kernel
  rw [hboth] at hfilter
  obtain ⟨qf, hqf⟩ := hsome "sum(id)" (by decide +kernel)
  obtain ⟨qg, hqg⟩ := hsome "name='a&b'" (by decide +kernel)
  have hselect : (ofString things "sum(id)").toOption.map
      (fun q => [Clause.filter, .page, .order, .group].map q.terms) = some [[], [], [], []] := by
    decide +kernel
  have hname : (ofString things "name='a&b'").toOption.map (fun q => q.terms .select) =
      some [] := by decide +kernel
  rw [hqf] at hselect
  rw [hqg] at hname
  have hapart : ∀ kind, qf.terms kind = [] ∨ qg.terms kind = [] := by
    simp only [Except.toOption, Option.map_some, List.map_cons, List.map_nil, Option.some.injEq,
      List.cons.injEq] at hselect hname
    obtain ⟨hf, hp, ho, hg, _⟩ := hselect
    intro kind
    cases kind with
    | filter => exact .inl hf
    | page => exact .inl hp
    | order => exact .inl ho
    | group => exact .inl hg
    | select => exact .inr hname
  obtain ⟨_, hswap⟩ := (ofString_composes things).2 summed q [] [] "sum(id)" "name='a&b'" qf qg hq
    (by decide +kernel) hqf hqg hapart
  exact ⟨⟨q, q', both, hq, hq', hboth, hterms, Option.some.inj hfilter⟩, q,
    (hswap _ (by decide +kernel)).imp fun _ hswapped => ⟨hq, hswapped⟩⟩

end ResourceQuery.Query

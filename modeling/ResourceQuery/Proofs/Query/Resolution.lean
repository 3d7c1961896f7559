import ResourceQuery.Proofs.Query.NormalForm
import ResourceQuery.Proofs.Term.Reading

set_option autoImplicit false

/-!
# Query: resolving keys in a store

The key terms below a root give way, one after the other, to the comparisons
that they stand for.  When none of them is at fault, the store shows the term
with all its keys expanded.

Key terms are resolved from the root inwards, so those that are still to come
have not been touched when their turn comes (`Pending`).  The term that is shown
in the end is the plot with the results grafted in, and that is the expansion.
-/

namespace ResourceQuery.Condition

open Term (forall_subterms)

variable {c : Collection} {s₀ s s' : Store} {E : WordId → Option Plot}

/-! ## One key term -/

/-- Some words have given way to what the key terms at them stand for. -/
structure Resolving (c : Collection) (s₀ s : Store) (E : WordId → Option Plot) : Prop where
  rewired : s₀.Rewired s E
  resolved : ∀ {x : WordId} {F : Plot}, E x = some F →
    keyComparisons c (s₀.read x) = .ok F.term

theorem Resolving.refl (c : Collection) (s : Store) : Resolving c s s fun _ => none := by
  refine ⟨.refl s, fun h => ?_⟩
  cases h

/-- A key term that is an argument of another term. -/
structure Site (s₀ : Store) (root : WordId) (Q : Plot) : Prop where
  ne_root : Q.id ≠ root
  shows : s₀.Shows Q
  nodup : Q.ids.Nodup
  parent : ∃ p, s₀.parent Q.id = some p

/-- A key term is read as it was as long as nothing in it has given way. -/
theorem Resolving.read_eq (h : Resolving c s₀ s E) {root : WordId} {Q : Plot}
    (hQ : Site s₀ root Q) (hE : ∀ x ∈ Q.ids, E x = none) : s.read Q.id = s₀.read Q.id := by
  have hshows := h.rewired.shows_graft hQ.shows
  rw [Plot.graft_eq_self hE] at hshows
  rw [hshows.read_eq hQ.nodup, hQ.shows.read_eq hQ.nodup]

/-- One more key term is resolved. -/
theorem Resolving.step (hs : s₀.WellFormed) (h : Resolving c s₀ s E) {root : WordId} {Q : Plot}
    (hQ : Site s₀ root Q) (hE : E Q.id = none) {e : Term}
    (he : keyComparisons c (s₀.read Q.id) = .ok e) :
    ∃ F, Resolving c s₀ ((s.plant e).2.replace Q.id (s.plant e).1).2 (putAt E Q.id F) := by
  obtain ⟨p, hp⟩ := hQ.parent
  obtain ⟨F, rfl, hrewired⟩ := h.rewired.replant hs e hQ.shows.id_lt hE hp
  refine ⟨F, hrewired, fun {x G} hG => ?_⟩
  rcases putAt_eq_some hG with ⟨rfl, rfl⟩ | ⟨_, hold⟩
  · exact he
  · exact h.resolved hold

/-! ## All key terms -/

/-- Key terms that are still to be resolved, each before those below it: nothing
in them has given way. -/
structure Pending (s₀ : Store) (root : WordId) (E : WordId → Option Plot) (ks : List WordId) :
    Prop where
  sites : ∀ k ∈ ks, ∃ Q : Plot, Q.id = k ∧ Site s₀ root Q ∧ ∀ x ∈ Q.ids, E x = none
  inward : ks.Pairwise fun k k' => k ∉ s₀.preorder k'

theorem Pending.tail {root k : WordId} {ks : List WordId} (h : Pending s₀ root E (k :: ks))
    (F : Plot) : Pending s₀ root (putAt E k F) ks := by
  obtain ⟨hfirst, hrest⟩ := List.pairwise_cons.1 h.inward
  refine ⟨fun k' hk' => ?_, hrest⟩
  obtain ⟨Q, rfl, hQ, hE⟩ := h.sites k' (List.mem_cons_of_mem k hk')
  refine ⟨Q, rfl, hQ, fun x hx => (if_neg ?_).trans (hE x hx)⟩
  rintro rfl
  refine hfirst Q.id hk' ?_
  rwa [hQ.shows.preorder_eq hQ.nodup]

/-- The run over the key terms: the first one at fault ends it, and otherwise
all of them are resolved. -/
theorem resolveKeysAt_spec (hs : s₀.WellFormed) {root : WordId} (ks : List WordId) :
    ∀ {s : Store} {E : WordId → Option Plot}, Resolving c s₀ s E → Pending s₀ root E ks →
      (resolveKeysAt c ks root s).1 =
          (fun _ => root) <$> (ks.map s₀.read).mapM (keyComparisons c) ∧
        ∀ {root' s'}, resolveKeysAt c ks root s = (.ok root', s') →
          root' = root ∧ ∃ E', Resolving c s₀ s' E' ∧
            ∀ x, (E' x).isSome = true ↔ (E x).isSome = true ∨ x ∈ ks := by
  induction ks with
  | nil =>
    intro s E h _
    refine ⟨rfl, fun hrun => ?_⟩
    cases hrun
    exact ⟨rfl, E, h, fun x => by simp⟩
  | cons k ks ih =>
    intro s E h hpending
    obtain ⟨Q, rfl, hQ, hE⟩ := hpending.sites k List.mem_cons_self
    rw [resolveKeysAt, h.read_eq hQ hE, List.map_cons, List.mapM_cons]
    cases hkey : keyComparisons c (s₀.read Q.id) with
    | error fault =>
      refine ⟨rfl, fun hrun => ?_⟩
      cases hrun
    | ok e =>
      obtain ⟨F, hstep⟩ := h.step hs hQ (hE _ Q.id_mem_ids) hkey
      obtain ⟨houtcome, hdone⟩ := ih hstep (hpending.tail F)
      simp only [if_neg hQ.ne_root]
      refine ⟨?_, fun hrun => ?_⟩
      · rw [houtcome]
        cases (ks.map s₀.read).mapM (keyComparisons c) <;> rfl
      · obtain ⟨hroot, E', hE', hsome⟩ := hdone hrun
        refine ⟨hroot, E', hE', fun x => ?_⟩
        rw [hsome, List.mem_cons]
        by_cases hx : x = Q.id
        · simp [hx, putAt]
        · simp [hx, putAt]

/-- With the key terms resolved where they stand, the term is expanded. -/
theorem term_graft {P : Plot} (h : ∀ Q : Plot, Q.Under P →
      (Q.term.role = some .key → ∃ F, E Q.id = some F ∧ keyComparisons c Q.term = .ok F.term) ∧
      (Q.term.role ≠ some .key → E Q.id = none)) :
    (P.graft E).term = expand c P.term := by
  induction P using Plot.induction with
  | node id token quote children ih =>
    obtain ⟨hkey, hother⟩ := h _ (.refl _)
    by_cases hrole : (Plot.node id token quote children).term.role = some .key
    · obtain ⟨F, hF, hok⟩ := hkey hrole
      rw [Plot.graft_some hF, expand_key hrole hok]
    · have hchildren : (children.map (Plot.graft E)).map Plot.term =
          (children.map Plot.term).map (expand c) := by
        rw [List.map_map, List.map_map]
        exact List.map_congr_left fun Q hQ => ih Q hQ fun R hR => h R (.child hQ hR)
      have hnone : E id = none := hother hrole
      rw [Plot.term_node] at hrole
      rw [Plot.graft_none hnone, Plot.term_node, hchildren, Plot.term_node, expand_node hrole]

variable {P : Plot} {root : WordId}

theorem mem_findAll_iff (hP : s.Shows P) (hnodup : P.ids.Nodup) {r : Role} {x : WordId} :
    x ∈ s.findAll P.id r.word ↔ ∃ Q : Plot, Q.Under P ∧ Q.id = x ∧ Q.term.role = some r := by
  rw [Store.findAll, hP.preorder_eq hnodup, List.mem_filter, Plot.mem_ids_iff]
  constructor
  · rintro ⟨⟨Q, hQ, rfl⟩, htoken⟩
    rw [(hP.under hQ).hasToken_eq, Term.hasToken_word_iff] at htoken
    exact ⟨Q, hQ, rfl, htoken⟩
  · rintro ⟨Q, hQ, rfl, hrole⟩
    refine ⟨⟨Q, hQ, rfl⟩, ?_⟩
    rw [(hP.under hQ).hasToken_eq, Term.hasToken_word_iff]
    exact hrole

/-- The words of a plot, each before those below it. -/
theorem inward_ids (hP : s.Shows P) (hnodup : P.ids.Nodup) :
    P.ids.Pairwise fun x y => x ∉ s.preorder y := by
  have hwithin : ∀ {R : Plot}, s.Shows R → R.ids.Nodup → ∀ y ∈ R.ids, ∀ x ∈ s.preorder y,
      x ∈ R.ids := by
    intro R hR hdistinct y hy x hx
    obtain ⟨Q, hQ, rfl⟩ := Plot.mem_ids_iff.1 hy
    rw [(hR.under hQ).preorder_eq (hQ.nodup hdistinct)] at hx
    exact hQ.ids_subset hx
  induction P using Plot.induction with
  | node id token quote children ih =>
    rw [Plot.nodup_node] at hnodup
    obtain ⟨heach, hapart⟩ := List.pairwise_flatMap.1 hnodup.2
    rw [Plot.ids_node, List.pairwise_cons, List.pairwise_flatMap]
    refine ⟨fun y hy hid => ?_, fun Q hQ => ih Q hQ (hP.child hQ) (heach Q hQ), ?_⟩
    · obtain ⟨Q, hQ, hy⟩ := List.mem_flatMap.1 hy
      exact hnodup.1 (List.mem_flatMap.2 ⟨Q, hQ, hwithin (hP.child hQ) (heach Q hQ) y hy id hid⟩)
    · refine hapart.imp_of_mem fun {Q R} _ hR hQR x hx y hy hmem => ?_
      exact hQR x hx x (hwithin (hP.child hR) (heach R hR) y hy x hmem) rfl

/-- The terms at the words of a plot are the terms of the plot. -/
theorem map_read_ids (hP : s.Shows P) (hnodup : P.ids.Nodup) :
    P.ids.map s.read = P.term.subterms := by
  induction P using Plot.induction with
  | node id token quote children ih =>
    have hroot := hP.read_eq hnodup
    have hbelow : (children.flatMap Plot.ids).map s.read =
        (children.map Plot.term).flatMap Term.subterms := by
      rw [List.map_flatMap, List.flatMap_map, List.flatMap_def, List.flatMap_def,
        List.map_congr_left fun Q hQ => ih Q hQ (hP.child hQ) (Plot.nodup_of_mem hnodup hQ)]
    rw [Plot.ids_node, List.map_cons, hbelow, Term.subterms_eq, Plot.children_term]
    exact congrArg (· :: _) hroot

/-- The terms at the words that are looked for, each before those below it. -/
theorem map_read_findAll (hP : s.Shows P) (hnodup : P.ids.Nodup) (word : String) :
    (s.findAll P.id word).map s.read = P.term.subterms.filter fun u => u.hasToken word := by
  have htoken : (fun x => s.hasToken x word) = (fun u => u.hasToken word) ∘ s.read := by
    funext x
    exact (s.hasToken_read x word).symm
  rw [Store.findAll, hP.preorder_eq hnodup, ← map_read_ids hP hnodup, htoken, List.filter_map]

/-- The key terms below a root, with nothing resolved so far. -/
theorem pending_inner (hs : s.WellFormed) (hP : s.Shows P) (hnodup : P.ids.Nodup)
    (hroot : root ∉ P.inner) (p : WordId → Bool) :
    Pending s root (fun _ => none) (P.inner.filter p) := by
  refine ⟨fun k hk => ?_, ?_⟩
  · have hmem := (List.mem_filter.1 hk).1
    obtain ⟨R, hR, hk⟩ := List.mem_flatMap.1 hmem
    obtain ⟨Q, hQ, rfl⟩ := Plot.mem_ids_iff.1 hk
    have hunder : Q.Under P := .child hR hQ
    refine ⟨Q, rfl, ⟨?_, hP.under hunder, hunder.nodup hnodup, ?_⟩, fun _ _ => rfl⟩
    · rintro rfl
      exact hroot hmem
    · rcases hunder.eq_or_child with rfl | ⟨S, hS, hchild⟩
      · rw [Plot.ids_eq, List.nodup_cons] at hnodup
        exact absurd hmem hnodup.1
      · refine ⟨S.id, hs.linked.1 ?_⟩
        rw [(hP.under hS).children_eq]
        exact List.mem_map_of_mem hchild
  · have hinward := inward_ids hP hnodup
    rw [Plot.ids_eq, List.pairwise_cons] at hinward
    exact hinward.2.filter p

/-- The key terms of a term, each before those below it. -/
def keyTerms (t : Term) : List Term := t.subterms.filter fun u => u.hasToken "_key"

theorem keysResolve_of_mapM {t : Term} {es : List Term}
    (h : (keyTerms t).mapM (keyComparisons c) = .ok es) : KeysResolve c t := by
  intro u hu hrole
  exact exists_of_mem_mapM h u (List.mem_filter.2 ⟨hu, (Term.hasToken_word_iff (r := .key)).2 hrole⟩)

/-- The first key term at fault is the fault of resolving them, and otherwise
the term is shown with all of them expanded. -/
structure Resolves (c : Collection) (t : Term) (result : Except Fault WordId × Store) : Prop where
  outcome : (fun _ => ()) <$> result.1 = (fun _ => ()) <$> (keyTerms t).mapM (keyComparisons c)
  plot : ∀ {root s'}, result = (.ok root, s') →
    ∃ F : Plot, F.id = root ∧ s'.Shows F ∧ F.ids.Nodup ∧ F.term = expand c t

/-- A term that is not a key term as a whole. -/
theorem resolves_inner (hs : s.WellFormed) (hP : s.Shows P) (hnodup : P.ids.Nodup)
    (hkey : P.term.role ≠ some .key) : Resolves c P.term (resolveKeys c P.id s) := by
  have hread : ∀ {Q : Plot}, Q.Under P → s.read Q.id = Q.term := fun hQ =>
    (hP.under hQ).read_eq (hQ.nodup hnodup)
  have hfound : s.findAll P.id "_key" = P.inner.filter fun x => s.hasToken x "_key" := by
    rw [Store.findAll, hP.preorder_eq hnodup, Plot.ids_eq, List.filter_cons_of_neg]
    rw [hP.hasToken_eq]
    exact fun h => hkey ((Term.hasToken_word_iff (r := .key)).1 h)
  have hroot : P.id ∉ P.inner := (List.nodup_cons.1 (Plot.ids_eq P ▸ hnodup)).1
  obtain ⟨houtcome, hdone⟩ := resolveKeysAt_spec (c := c) hs _ (.refl c s)
    (pending_inner hs hP hnodup hroot fun x => s.hasToken x "_key")
  rw [← hfound] at houtcome hdone
  refine ⟨?_, fun hrun => ?_⟩
  · rw [resolveKeys, houtcome, map_read_findAll hP hnodup, Functor.map_map]
    rfl
  · obtain ⟨rfl, E, hE, hresolved⟩ := hdone hrun
    have hsome : ∀ x, (E x).isSome = true ↔
        ∃ Q : Plot, Q.Under P ∧ Q.id = x ∧ Q.term.role = some .key := by
      intro x
      rw [hresolved x, ← mem_findAll_iff (r := .key) hP hnodup]
      simp [Role.word]
    have hkeys : ∀ Q : Plot, Q.Under P →
        (Q.term.role = some .key → ∃ F, E Q.id = some F ∧ keyComparisons c Q.term = .ok F.term) ∧
        (Q.term.role ≠ some .key → E Q.id = none) := by
      intro Q hQ
      refine ⟨fun hrole => ?_, fun hrole => ?_⟩
      · obtain ⟨F, hF⟩ := Option.isSome_iff_exists.1 ((hsome Q.id).2 ⟨Q, hQ, rfl, hrole⟩)
        refine ⟨F, hF, ?_⟩
        rw [← hread hQ]
        exact hE.resolved hF
      · rw [← Option.not_isSome_iff_eq_none, hsome]
        rintro ⟨R, hR, heq, hrole'⟩
        rw [← hread hR, heq, hread hQ] at hrole'
        exact hrole hrole'
    refine ⟨P.graft E, ?_, hE.rewired.shows_graft hP, hE.rewired.nodup_graft hP hnodup,
      term_graft hkeys⟩
    rw [Plot.id_graft, relocate, (hkeys P (.refl P)).2 hkey]

/-- A key term as a whole: what is planted for it is the new root, and is left
alone when key terms below the old one give way. -/
theorem resolves_root (hs : s.WellFormed) (hP : s.Shows P) (hnodup : P.ids.Nodup)
    (hkey : P.term.role = some .key) : Resolves c P.term (resolveKeys c P.id s) := by
  have hfound : s.findAll P.id "_key" = P.id :: P.inner.filter fun x => s.hasToken x "_key" := by
    rw [Store.findAll, hP.preorder_eq hnodup, Plot.ids_eq, List.filter_cons_of_pos]
    rw [hP.hasToken_eq]
    exact (Term.hasToken_word_iff (r := .key)).2 hkey
  have hterms := map_read_findAll hP hnodup "_key"
  rw [hfound, List.map_cons, hP.read_eq hnodup] at hterms
  rw [resolveKeys, hfound, resolveKeysAt, hP.read_eq hnodup]
  cases he : keyComparisons c P.term with
  | error fault =>
    refine ⟨?_, fun h => ?_⟩
    · rw [keyTerms, ← hterms, List.mapM_cons, he]
      rfl
    · cases h
  | ok e =>
    obtain ⟨F, hid, rfl, hsown, _⟩ := Store.plant_spec e s
    have hfresh : ∀ y ∈ F.ids, s.size ≤ y.index := fun y hy =>
      hsown.fresh y (List.mem_flatMap.2 ⟨F, List.mem_cons_self, hy⟩)
    -- what was planted is fresh, so no key term that is still to be resolved is in it
    have hapart : ∀ x ∈ P.ids, x ∉ F.ids := fun x hx hx' =>
      absurd (hP.ids_lt x hx) (Nat.not_lt_of_le (hfresh x hx'))
    have hroot : F.id ∉ P.inner := fun hmem =>
      hapart F.id (P.mem_ids_of_mem_inner hmem) F.id_mem_ids
    obtain ⟨houtcome, hdone⟩ := resolveKeysAt_spec (c := c) (.plant F.term hs) _
      (.refl c (s.plant F.term).2) (pending_inner (.plant F.term hs) (hsown.extension.shows hP)
        hnodup hroot fun x => s.hasToken x "_key")
    have hsame : (P.inner.filter fun x => s.hasToken x "_key").map (s.plant F.term).2.read =
        (P.inner.filter fun x => s.hasToken x "_key").map s.read := by
      refine List.map_congr_left fun x hx => hsown.extension.read_eq hs (hP.ids_lt x ?_)
      exact P.mem_ids_of_mem_inner (List.mem_filter.1 hx).1
    rw [hsame] at houtcome
    simp only [if_true, ← hid]
    refine ⟨?_, fun hrun => ?_⟩
    · rw [houtcome, keyTerms, ← hterms, List.mapM_cons, he]
      cases ((P.inner.filter fun x => s.hasToken x "_key").map s.read).mapM (keyComparisons c) <;>
        rfl
    · obtain ⟨rfl, E, hE, hresolved⟩ := hdone hrun
      have hnone : ∀ x ∈ F.ids, E x = none := by
        intro x hx
        rw [← Option.not_isSome_iff_eq_none, hresolved]
        rintro (hsome | hmem)
        · cases hsome
        · exact hapart x (P.mem_ids_of_mem_inner (List.mem_filter.1 hmem).1) hx
      have hF := hE.rewired.shows_graft (hsown.shows F List.mem_cons_self)
      rw [Plot.graft_eq_self hnone] at hF
      have hFnodup := hsown.nodup
      rw [List.flatMap_singleton] at hFnodup
      exact ⟨F, rfl, hF, hFnodup, (expand_key hkey he).symm⟩

/-- The key terms below a root are resolved. -/
theorem resolves_resolveKeys (hs : s.WellFormed) (hP : s.Shows P) (hnodup : P.ids.Nodup) :
    Resolves c P.term (resolveKeys c P.id s) := by
  by_cases hkey : P.term.role = some .key
  · exact resolves_root hs hP hnodup hkey
  · exact resolves_inner hs hP hnodup hkey

theorem Resolves.keys {t : Term} {result : Except Fault WordId × Store} (h : Resolves c t result)
    (hok : result.1 = .ok root) : KeysResolve c t := by
  have houtcome := h.outcome
  rw [hok] at houtcome
  obtain ⟨es, hes, _⟩ := map_eq_ok_iff.1 houtcome.symm
  exact keysResolve_of_mapM hes

end ResourceQuery.Condition

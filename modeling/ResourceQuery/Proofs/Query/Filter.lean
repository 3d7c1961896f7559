import ResourceQuery.Proofs.Query.Resolution
import ResourceQuery.Query

set_option autoImplicit false

/-!
# Query: filters in normal form

What the steps of a claim on the filter do to the store: the words of wide
equations change, and the conjuncts of the root are detached.  The terms that
are claimed are then those of the normal form.

The store is compared with terms by plots, which are terms with the ids of their
words.  A step is followed by saying which plot the store shows after it.
-/

namespace ResourceQuery

/-! ## Other words -/

/-- The plot with the given texts for its words. -/
def Plot.retoken (text : WordId → String) : Plot → Plot := Plot.fold fun
  | .node id _ quote _, below => .node id (text id) quote below

theorem Plot.retoken_node (text : WordId → String) (id : WordId) (token : String)
    (quote : Option Quote) (children : List Plot) :
    (Plot.node id token quote children).retoken text =
      .node id (text id) quote (children.map (Plot.retoken text)) := by
  rw [retoken, fold_eq]
  rfl

theorem Plot.id_retoken (text : WordId → String) (P : Plot) : (P.retoken text).id = P.id := by
  obtain ⟨id, token, quote, children⟩ := P
  rw [retoken_node]
  rfl

theorem Plot.ids_retoken (text : WordId → String) (P : Plot) : (P.retoken text).ids = P.ids := by
  induction P using Plot.induction with
  | node id token quote children ih =>
    rw [retoken_node, ids_node, ids_node, List.flatMap_map, List.flatMap_def, List.flatMap_def,
      List.map_congr_left ih]

namespace Store

/-- Only the texts of words differ. -/
structure Renamed (s s' : Store) : Prop where
  size_eq : s'.size = s.size
  quote_eq : ∀ x, s'.quote x = s.quote x
  children_eq : ∀ x, s'.children x = s.children x

theorem Renamed.shows {s s' : Store} (h : s.Renamed s') {P : Plot} (hP : s.Shows P) :
    s'.Shows (P.retoken s'.token) := by
  induction hP with
  | @node id token quote children hid _ hquote hchildren _ ih =>
    rw [Plot.retoken_node]
    refine .node (by rw [h.size_eq]; exact hid) rfl (by rw [h.quote_eq, hquote]) ?_ fun R hR => ?_
    · rw [h.children_eq, hchildren, List.map_map]
      exact List.map_congr_left fun Q _ => (Q.id_retoken _).symm
    · obtain ⟨Q, hQ, rfl⟩ := List.mem_map.1 hR
      exact ih Q hQ

theorem word_setToken (s : Store) (id : WordId) (text : String) (x : WordId) :
    (s.setToken id text).word x =
      { s.word x with token := if x = id ∧ id.index < s.size then text else s.token x } := by
  rw [setToken, word_update]
  split
  · next hx => rw [hx.1]
  · rfl

theorem children_setToken (s : Store) (id : WordId) (text : String) (x : WordId) :
    (s.setToken id text).children x = s.children x := by
  rw [children, word_setToken]
  rfl

/-- A word that has arguments is in the store. -/
theorem lt_size_of_children {s : Store} {x : WordId} (h : s.children x ≠ []) :
    x.index < s.size := by
  refine Nat.lt_of_not_le fun hle => h ?_
  rw [children, word, Array.getElem?_eq_none (show s.words.size ≤ x.index from hle)]
  rfl

end Store

namespace Condition

variable {c : Collection} {s s' : Store} {P : Plot}

/-- The equation at an id becomes `in` if it has several values. -/
def widenAt (s : Store) (id : WordId) : Store :=
  if 2 < (s.children id).length then s.setToken id "in" else s

/-- Of all words only that of a wide equation changes. -/
theorem token_widenAt (s : Store) (id x : WordId) :
    (widenAt s id).token x =
      if x = id ∧ 2 < (s.children x).length then "in" else s.token x := by
  unfold widenAt
  split
  · next hwide =>
    have hlt : id.index < s.size := Store.lt_size_of_children fun hnil => by
      rw [hnil] at hwide
      cases hwide
    rw [Store.token, Store.word_setToken]
    by_cases hx : x = id
    · simp [hx, hlt, hwide]
    · simp [hx]
  · next hwide =>
    rw [if_neg]
    rintro ⟨rfl, h⟩
    exact hwide h

theorem renamed_widenAt (s : Store) (id : WordId) : s.Renamed (widenAt s id) := by
  unfold widenAt
  split
  · exact ⟨by rw [Store.setToken, Store.size_update],
      fun x => by rw [Store.quote, Store.word_setToken]; rfl, s.children_setToken id "in"⟩
  · exact ⟨rfl, fun _ => rfl, fun _ => rfl⟩

/-- The run over the equations: the text of a word becomes `in` if it is one of
them and has several values. -/
theorem foldl_widenAt (ids : List WordId) : ∀ s : Store,
    s.Renamed (ids.foldl widenAt s) ∧ ∀ x, (ids.foldl widenAt s).token x =
      if x ∈ ids ∧ 2 < (s.children x).length then "in" else s.token x := by
  induction ids with
  | nil =>
    intro s
    refine ⟨⟨rfl, fun _ => rfl, fun _ => rfl⟩, fun x => ?_⟩
    rw [List.foldl_nil, if_neg fun h => List.not_mem_nil h.1]
  | cons id ids ih =>
    intro s
    have hstep := renamed_widenAt s id
    obtain ⟨hrest, htoken⟩ := ih (widenAt s id)
    rw [List.foldl_cons]
    refine ⟨⟨hrest.size_eq.trans hstep.size_eq,
      fun x => (hrest.quote_eq x).trans (hstep.quote_eq x),
      fun x => (hrest.children_eq x).trans (hstep.children_eq x)⟩, fun x => ?_⟩
    rw [htoken x, hstep.children_eq x, token_widenAt]
    simp only [List.mem_cons]
    by_cases hmem : x ∈ ids ∧ 2 < (s.children x).length
    · rw [if_pos hmem, if_pos ⟨.inr hmem.1, hmem.2⟩]
    · rw [if_neg hmem]
      by_cases hx : x = id ∧ 2 < (s.children x).length
      · rw [if_pos hx, if_pos ⟨.inl hx.1, hx.2⟩]
      · rw [if_neg hx, if_neg]
        rintro ⟨heq | hin, hwide⟩
        · exact hx ⟨heq, hwide⟩
        · exact hmem ⟨hin, hwide⟩

/-- With the words of its wide equations changed, the term is widened. -/
theorem term_retoken {text : WordId → String} (h : ∀ Q : Plot, Q.Under P → text Q.id =
      if Q.term.role = some .equation ∧ 2 < Q.children.length then "in" else Q.term.token) :
    (P.retoken text).term = widen P.term := by
  induction P using Plot.induction with
  | node id token quote children ih =>
    have hchildren : (children.map (Plot.retoken text)).map Plot.term =
        (children.map Plot.term).map widen := by
      rw [List.map_map, List.map_map]
      exact List.map_congr_left fun Q hQ => ih Q hQ fun R hR => h R (.child hQ hR)
    have hroot := h _ (.refl _)
    rw [Plot.id, Plot.term_node, Plot.children] at hroot
    rw [Plot.retoken_node, Plot.term_node, Plot.term_node, widen_node, hchildren, hroot,
      List.length_map]
    rfl

/-- Wide equations below a root become `in`: the term is shown widened. -/
theorem widenEquations_shows (hP : s.Shows P) (hnodup : P.ids.Nodup) :
    ∃ P' : Plot, P'.id = P.id ∧ (widenEquations P.id s).Shows P' ∧ P'.ids.Nodup ∧
      P'.term = widen P.term := by
  have hfold : widenEquations P.id s = (s.findAll P.id "eq").foldl widenAt s := rfl
  obtain ⟨hrenamed, htoken⟩ := foldl_widenAt (s.findAll P.id "eq") s
  rw [← hfold] at hrenamed htoken
  refine ⟨_, Plot.id_retoken _ P, hrenamed.shows hP, by rwa [Plot.ids_retoken], ?_⟩
  refine term_retoken fun Q hQ => ?_
  have hQ' := hP.under hQ
  have hfound : Q.id ∈ s.findAll P.id "eq" ↔ Q.term.role = some .equation := by
    refine (mem_findAll_iff (r := .equation) hP hnodup).trans ⟨?_, fun h => ⟨Q, hQ, rfl, h⟩⟩
    rintro ⟨R, hR, heq, hrole⟩
    rw [← (hP.under hR).read_eq (hR.nodup hnodup), heq, hQ'.read_eq (hQ.nodup hnodup)] at hrole
    exact hrole
  rw [htoken, hQ'.children_eq, List.length_map, hQ'.token_eq]
  simp only [hfound]

/-! ## Conjuncts -/

/-- The ids are those of plots, within the given ones, that the store shows and
whose terms are the given ones; and the store still shows whatever had none of
the given words below its root. -/
structure Parted (s : Store) (below : List WordId) (terms : List Term)
    (result : List WordId × Store) : Prop where
  plots : ∃ Ps : List Plot, result.1 = Ps.map Plot.id ∧ Ps.map Plot.term = terms ∧
    ∀ Q ∈ Ps, result.2.Shows Q ∧ Q.ids.Nodup ∧ ∀ x ∈ Q.inner, x ∈ below
  frame : ∀ {R : Plot}, s.Shows R → (∀ x ∈ R.inner, x ∉ below) → result.2.Shows R

/-- What one conjunct adds to those before it. -/
def conjunctsStep (depth : Nat) : List WordId × Store → WordId → List WordId × Store
  | (ids, s), child =>
    let (more, s) := conjuncts depth (s.detach child) child
    (ids ++ more, s)

theorem conjuncts_and {depth : Nat} {id : WordId} (h : s.hasToken id "and" = true) :
    conjuncts (depth + 1) s id = (s.children id).foldl (conjunctsStep depth) ([], s) := by
  rw [conjuncts, if_pos h]
  rfl

theorem conjuncts_other {depth : Nat} {id : WordId} (h : s.hasToken id "and" = false) :
    conjuncts (depth + 1) s id = ([id], s) := by
  rw [conjuncts, h]
  rfl

theorem foldl_conjunctsStep (depth : Nat) (children : List WordId) :
    ∀ (ids : List WordId) (s : Store),
      children.foldl (conjunctsStep depth) (ids, s) =
        (ids ++ (children.foldl (conjunctsStep depth) ([], s)).1,
          (children.foldl (conjunctsStep depth) ([], s)).2) := by
  induction children with
  | nil =>
    intro ids s
    simp
  | cons child children ih =>
    intro ids s
    simp only [List.foldl_cons, conjunctsStep]
    rw [ih (ids ++ _), ih ([] ++ _)]
    simp

/-- One conjunct in front of others.  It is detached first; the others, which
have none of its words, are not touched. -/
theorem Parted.cons {depth : Nat} {Q : Plot} {Qs : List Plot} {terms terms' : List Term}
    (hnodup : ((Q :: Qs).flatMap Plot.ids).Nodup)
    (h : Parted (s.detach Q.id) Q.inner terms (conjuncts depth (s.detach Q.id) Q.id))
    (h' : Parted (conjuncts depth (s.detach Q.id) Q.id).2 (Qs.flatMap Plot.ids) terms'
      ((Qs.map Plot.id).foldl (conjunctsStep depth)
        ([], (conjuncts depth (s.detach Q.id) Q.id).2))) :
    Parted s ((Q :: Qs).flatMap Plot.ids) (terms ++ terms')
      (((Q :: Qs).map Plot.id).foldl (conjunctsStep depth) ([], s)) := by
  rw [List.flatMap_cons, List.nodup_append] at hnodup
  obtain ⟨_, _, hapart⟩ := hnodup
  rw [List.map_cons, List.foldl_cons, conjunctsStep, foldl_conjunctsStep]
  obtain ⟨Ps, hids, hterms, hPs⟩ := h.plots
  obtain ⟨Ps', hids', hterms', hPs'⟩ := h'.plots
  refine ⟨⟨Ps ++ Ps', ?_, ?_, fun R hR => ?_⟩, fun {R} hR hbelow => ?_⟩
  · rw [hids, hids', List.nil_append, List.map_append]
  · rw [hterms.symm, hterms'.symm, List.map_append]
  · rw [List.flatMap_cons]
    rcases List.mem_append.1 hR with hR | hR
    · obtain ⟨hshows, hdistinct, hinner⟩ := hPs R hR
      have hwithin : ∀ x ∈ R.inner, x ∈ Q.ids := fun x hx => Q.mem_ids_of_mem_inner (hinner x hx)
      refine ⟨h'.frame hshows fun x hx hmem => ?_, hdistinct, fun x hx => ?_⟩
      · exact hapart x (hwithin x hx) x hmem rfl
      · exact List.mem_append_left _ (hwithin x hx)
    · obtain ⟨hshows, hdistinct, hinner⟩ := hPs' R hR
      exact ⟨hshows, hdistinct, fun x hx => List.mem_append_right _ (hinner x hx)⟩
  · simp only [List.flatMap_cons, List.mem_append, not_or] at hbelow
    refine h'.frame (h.frame (hR.detach fun hmem => ?_) fun x hx hmem => ?_) fun x hx => ?_
    · exact (hbelow Q.id hmem).1 Q.id_mem_ids
    · exact (hbelow x hx).1 (Q.mem_ids_of_mem_inner hmem)
    · exact (hbelow x hx).2

/-- What happens to one conjunct leaves those behind it shown. -/
theorem Parted.siblings {Q : Plot} {Qs : List Plot} {terms : List Term}
    {result : List WordId × Store} (hnodup : ((Q :: Qs).flatMap Plot.ids).Nodup)
    (h : Parted (s.detach Q.id) Q.inner terms result) (hshows : ∀ R ∈ Qs, s.Shows R) :
    ∀ R ∈ Qs, result.2.Shows R := by
  rw [List.flatMap_cons, List.nodup_append] at hnodup
  obtain ⟨_, _, hapart⟩ := hnodup
  intro R hR
  have hwithin : ∀ x ∈ R.inner, x ∈ Qs.flatMap Plot.ids := fun x hx =>
    List.mem_flatMap.2 ⟨R, hR, R.mem_ids_of_mem_inner hx⟩
  refine h.frame ((hshows R hR).detach fun hmem => ?_) fun x hx hmem => ?_
  · exact hapart Q.id Q.id_mem_ids Q.id (hwithin Q.id hmem) rfl
  · exact hapart x (Q.mem_ids_of_mem_inner hmem) x (hwithin x hx) rfl

/-- The run over the arguments of a conjunction, given what happens to each of them. -/
theorem parted_foldl {depth : Nat} (Qs : List Plot)
    (hone : ∀ Q ∈ Qs, ∀ {s : Store}, s.Shows Q →
      Parted s Q.inner Q.term.conjuncts (conjuncts depth s Q.id)) :
    ∀ {s : Store}, (∀ Q ∈ Qs, s.Shows Q) → (Qs.flatMap Plot.ids).Nodup →
      Parted s (Qs.flatMap Plot.ids) ((Qs.map Plot.term).flatMap Term.conjuncts)
        ((Qs.map Plot.id).foldl (conjunctsStep depth) ([], s)) := by
  induction Qs with
  | nil =>
    intro s _ _
    exact ⟨⟨[], rfl, rfl, fun _ h => absurd h List.not_mem_nil⟩, fun h _ => h⟩
  | cons Q Qs ih =>
    intro s hshows hnodup
    have hparts := hnodup
    rw [List.flatMap_cons, List.nodup_append] at hparts
    obtain ⟨hQ, hQs, _⟩ := hparts
    have hroot : Q.id ∉ Q.inner := by
      rw [Plot.ids_eq, List.nodup_cons] at hQ
      exact hQ.1
    have hfirst := hone Q List.mem_cons_self ((hshows Q List.mem_cons_self).detach hroot)
    rw [List.map_cons, List.flatMap_cons]
    exact hfirst.cons hnodup (ih (fun R hR => hone R (List.mem_cons_of_mem Q hR))
      (hfirst.siblings hnodup fun R hR => hshows R (List.mem_cons_of_mem Q hR)) hQs)

/-- A term is taken apart into its conjuncts. -/
theorem parted_conjuncts (depth : Nat) :
    ∀ {P : Plot}, P.ids.Nodup → P.ids.length ≤ depth → ∀ {s : Store}, s.Shows P →
      Parted s P.inner P.term.conjuncts (conjuncts depth s P.id) := by
  induction depth with
  | zero =>
    intro P _ hdepth
    rw [Plot.ids_eq] at hdepth
    cases hdepth
  | succ depth ih =>
    intro P hnodup hdepth s hP
    by_cases hrole : P.term.role = some .all
    · have htoken : s.hasToken P.id "and" = true := by
        rw [hP.hasToken_eq]
        exact (Term.hasToken_word_iff (r := .all)).2 hrole
      rw [conjuncts_and htoken, hP.children_eq, Term.conjuncts_all hrole, Plot.children_term]
      refine parted_foldl P.children (fun Q hQ {_} hQs => ?_) (fun Q hQ => hP.child hQ) ?_
      · have hless := Plot.length_ids_lt hQ
        exact ih (Plot.nodup_of_mem hnodup hQ) (by omega) hQs
      · rw [Plot.ids_eq, List.nodup_cons] at hnodup
        exact hnodup.2
    · have htoken : s.hasToken P.id "and" = false := by
        rw [hP.hasToken_eq, Bool.eq_false_iff]
        exact fun h => hrole ((Term.hasToken_word_iff (r := .all)).1 h)
      rw [conjuncts_other htoken, Term.conjuncts_other hrole]
      refine ⟨⟨[P], rfl, rfl, fun Q hQ => ?_⟩, fun h _ => h⟩
      rw [List.mem_singleton.1 hQ]
      exact ⟨hP, hnodup, fun _ hx => hx⟩

/-! ## Claims on the filter -/

/-- The terms that are claimed are those of the normal form. -/
theorem claim_ok (hs : s.WellFormed) (hP : s.Shows P) {ids : List WordId}
    (h : claim c s P.id = (.ok ids, s')) :
    KeysResolve c P.term ∧ ids.map s'.read = normalForm c P.term := by
  unfold claim at h
  split at h
  · cases h
  · next root s₁ hresolve =>
    have hresolves := resolves_resolveKeys (c := c) hs hP (hP.nodup hs)
    have hkeys := hresolves.keys (congrArg Prod.fst hresolve)
    obtain ⟨F, rfl, hF, hFnodup, hFterm⟩ := hresolves.plot hresolve
    obtain ⟨W, hWid, hW, hWnodup, hWterm⟩ := widenEquations_shows hF hFnodup
    have hfuel : W.ids.length ≤ (widenEquations F.id s₁).size + 1 :=
      Nat.le_succ_of_le (Store.length_le_size hWnodup hW.ids_lt)
    obtain ⟨Ps, hids, hterms, hPs⟩ := (parted_conjuncts _ hWnodup hfuel hW).plots
    rw [hWid] at hids hPs
    simp only [Prod.mk.injEq, Except.ok.injEq] at h
    obtain ⟨rfl, rfl⟩ := h
    refine ⟨hkeys, ?_⟩
    rw [normalForm, ← hFterm, ← hWterm, ← hterms, hids, List.map_map]
    exact List.map_congr_left fun Q hQ => (hPs Q hQ).1.read_eq (hPs Q hQ).2.1

end Condition

namespace Query

/-- A filter that a query takes: what it adds holds just when the filter does,
is normal, and comes in the order of the conjuncts of the filter. -/
theorem claimFilter_normalizes (q q' : Query) (id : WordId) (hstore : q.store.WellFormed)
    (hid : id.index < q.store.size) (hfilter : (q.store.read id).isFilter = true)
    (h : q.claimFilter id = (.ok (), q')) :
    ∃ ids, q'.filter = q.filter ++ ids ∧
      (∀ ρ : Valuation, ρ.holds q.collection (q.store.read id) =
        (ids.map q'.store.read).all (ρ.holds q.collection)) ∧
      (∀ t ∈ ids.map q'.store.read, Condition.Normal t) ∧
      ids.map q'.store.read =
        (q.store.read id).conjuncts.flatMap (Condition.normalForm q.collection) := by
  obtain ⟨P, rfl, hP, hnodup⟩ := hstore.exists_plot hid
  rw [hP.read_eq hnodup] at hfilter ⊢
  unfold claimFilter at h
  split at h
  · next ids s' hclaim =>
    cases h
    obtain ⟨hkeys, hterms⟩ := Condition.claim_ok hstore hP hclaim
    refine ⟨ids, rfl, fun ρ => ?_, fun t ht => ?_, ?_⟩
    · rw [hterms]
      exact Condition.holds_normalForm hfilter hkeys ρ
    · rw [hterms] at ht
      exact Condition.normal_of_mem_normalForm hkeys t ht
    · rw [hterms]
      exact Condition.normalForm_eq_flatMap P.term
  · cases h

/-- A collection with a key of two columns. -/
def things : Collection :=
  ⟨"things", none,
    [⟨"type", none, .string, false⟩, ⟨"id", none, .integer, false⟩, ⟨"name", none, .string, true⟩],
    [⟨"byId", .primary, ["type", "id"]⟩], []⟩

/-- A conjunction of an equation with several values, of keys below other
connectives, and of a key. -/
def keyed : Term :=
  .call "AND" [
    .call "eq" [.word "name", .leaf "a" (some .double), .word "b"],
    .call "or" [
      .call "_key" [.word "byId", .word "x~1", .word "null~2"],
      .call "Not" [.call "n" [.word "name"]]],
    .call "_KEY" [.word "byid", .word "y~3"]]

/-- A query with the term in its store. -/
def keyedThings : Query := { new things with store := (Store.empty.plant keyed).2 }

theorem claimFilter_normalizes_keyed :
    ∃ q', keyedThings.claimFilter (Store.empty.plant keyed).1 = (.ok (), q') ∧
      q'.terms .filter = [
        .call "in" [.word "name", .leaf "a" (some .double), .word "b"],
        .call "or" [
          .call "or" [
            .call "and" [.call "eq" [.word "type", .word "x"], .call "eq" [.word "id", .word "1"]],
            .call "and" [.call "eq" [.word "type", .leaf "null" (some .double)],
              .call "eq" [.word "id", .word "2"]]],
          .call "Not" [.call "n" [.word "name"]]],
        .call "eq" [.word "type", .word "y"],
        .call "eq" [.word "id", .word "3"]] ∧
      (∀ ρ : Valuation, ρ.holds things keyed = (q'.terms .filter).all (ρ.holds things)) ∧
      ∀ t ∈ q'.terms .filter, Condition.Normal t := by
  have hstore : keyedThings.store.WellFormed := Store.WellFormed.plant keyed .empty
  have hid : (Store.empty.plant keyed).1.index < keyedThings.store.size := by decide +kernel
  have hread : keyedThings.store.read (Store.empty.plant keyed).1 = keyed := by decide +kernel
  have hfilter : (keyedThings.store.read (Store.empty.plant keyed).1).isFilter = true := by
    decide +kernel
  have hok : (keyedThings.claimFilter (Store.empty.plant keyed).1).1 = .ok () :=
    eq_ok_of_toOption (by decide +kernel)
  obtain ⟨q', hq'⟩ := exists_of_fst_eq hok
  obtain ⟨ids, hids, hholds, hnormal, _⟩ :=
    claimFilter_normalizes keyedThings q' (Store.empty.plant keyed).1 hstore hid hfilter hq'
  have hclause : ids.map q'.store.read = q'.terms .filter := by
    rw [terms, clause, hids]
    rfl
  rw [hread, hclause] at hholds
  rw [hclause] at hnormal
  refine ⟨q', hq', ?_, hholds, hnormal⟩
  obtain rfl : (keyedThings.claimFilter (Store.empty.plant keyed).1).2 = q' := by rw [hq']
  decide +kernel

end Query
end ResourceQuery

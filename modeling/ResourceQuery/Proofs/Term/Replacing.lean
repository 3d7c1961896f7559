import ResourceQuery.Proofs.Term.Planting
import ResourceQuery.Proofs.Term.WellFormed

set_option autoImplicit false

/-!
# Terms in a store: detaching and replacing

A word that is detached is no longer an argument; a plot that it is not below
stays shown.

Terms of a well-formed store give way, one after the other, to terms that are
newly planted.  Whatever the store showed before, it then shows with the new
plots in the place of the old ones; what was planted stays as it is.

The invariant is `Rewired`: which words have given way so far, and to what.
`Rewired.put` is its step, and `Rewired.shows_graft` what it is for.
-/

namespace ResourceQuery

/-! ## Plots with plots in their place -/

/-- The id that stands where the word with this id stood. -/
def relocate (E : WordId → Option Plot) (x : WordId) : WordId :=
  match E x with
  | some F => F.id
  | none => x

/-- One more plot in the place of a word. -/
def putAt (E : WordId → Option Plot) (k : WordId) (F : Plot) : WordId → Option Plot :=
  fun x => if x = k then some F else E x

theorem relocate_putAt (E : WordId → Option Plot) (k : WordId) (F : Plot) (x : WordId) :
    relocate (putAt E k F) x = if x = k then F.id else relocate E x := by
  unfold relocate putAt
  by_cases hx : x = k
  · rw [if_pos hx, if_pos hx]
  · rw [if_neg hx, if_neg hx]

/-- The plots that are in the place of words, once there is one more. -/
theorem putAt_eq_some {E : WordId → Option Plot} {k x : WordId} {F G : Plot}
    (h : putAt E k F x = some G) : (x = k ∧ G = F) ∨ (x ≠ k ∧ E x = some G) := by
  unfold putAt at h
  split at h
  · next hx => exact .inl ⟨hx, (Option.some.inj h).symm⟩
  · next hx => exact .inr ⟨hx, h⟩

namespace Plot

/-- The plot with others in the place of those whose root they are given for. -/
def graft (E : WordId → Option Plot) : Plot → Plot := fold fun
  | node id token quote _, below =>
    match E id with
    | some F => F
    | none => node id token quote below

variable {E : WordId → Option Plot}

theorem graft_some {P F : Plot} (h : E P.id = some F) : P.graft E = F := by
  obtain ⟨id, token, quote, children⟩ := P
  rw [Plot.id] at h
  rw [graft, fold_eq]
  simp only [h]

theorem graft_none {id : WordId} {token : String} {quote : Option Quote} {children : List Plot}
    (h : E id = none) :
    (node id token quote children).graft E = node id token quote (children.map (graft E)) := by
  rw [graft, fold_eq]
  simp only [h]
  rfl

theorem id_graft (P : Plot) : (P.graft E).id = relocate E P.id := by
  unfold relocate
  obtain ⟨id, token, quote, children⟩ := P
  cases h : E id with
  | some F => rw [graft_some h]; simp only [Plot.id, h]
  | none => rw [graft_none h]; simp only [Plot.id, h]

/-- A plot in which nothing gives way. -/
theorem graft_eq_self {P : Plot} (h : ∀ x ∈ P.ids, E x = none) : P.graft E = P := by
  induction P using Plot.induction with
  | node id token quote children ih =>
    rw [ids_node] at h
    have hchildren : children.map (graft E) = children.map fun Q => Q :=
      List.map_congr_left fun Q hQ => ih Q hQ fun x hx =>
        h x (List.mem_cons_of_mem id (List.mem_flatMap.2 ⟨Q, hQ, hx⟩))
    rw [graft_none (h id List.mem_cons_self), hchildren, List.map_id']

/-- The ids of the new whole are those of the old one and of what was put into it. -/
theorem mem_ids_graft {P : Plot} {y : WordId} (hy : y ∈ (P.graft E).ids) :
    y ∈ P.ids ∨ ∃ x ∈ P.ids, ∃ F, E x = some F ∧ y ∈ F.ids := by
  induction P using Plot.induction with
  | node id token quote children ih =>
    cases hE : E id with
    | some F =>
      rw [graft_some hE] at hy
      exact .inr ⟨id, id_mem_ids _, F, hE, hy⟩
    | none =>
      rw [graft_none hE, ids_node, List.flatMap_map] at hy
      rcases List.mem_cons.1 hy with rfl | hy
      · exact .inl (id_mem_ids _)
      · obtain ⟨Q, hQ, hy⟩ := List.mem_flatMap.1 hy
        rcases ih Q hQ hy with hy | ⟨x, hx, F, hF, hy⟩
        · exact .inl (mem_ids_of_mem_inner _ (mem_inner hQ hy))
        · exact .inr ⟨x, mem_ids_of_mem_inner _ (mem_inner hQ hx), F, hF, hy⟩

end Plot

namespace Store

/-! ## One word in the place of another -/

/-- Replacing changes the links of the two words and of the one above them, and nothing else. -/
structure Replaced (s : Store) (old new p : WordId) (s' : Store) : Prop where
  size_eq : s'.size = s.size
  token_eq : ∀ x, s'.token x = s.token x
  quote_eq : ∀ x, s'.quote x = s.quote x
  children_eq : ∀ x, x ≠ p → s'.children x = s.children x
  exchanged : s'.children p = exchange old new (s.children p)
  parent_eq : ∀ x, x ≠ old → x ≠ new → s'.parent x = s.parent x

theorem detach_of_root {s : Store} {x : WordId} (h : s.parent x = none) : s.detach x = s := by
  rw [detach, h]

/-- Only the link upwards is set. -/
theorem word_setParent (s : Store) (id : WordId) (p : Option WordId) (x : WordId) :
    (s.update id fun n => { n with parent := p }).word x =
      { s.word x with parent := if x = id ∧ id.index < s.size then p else s.parent x } := by
  rw [word_update]
  split
  · next hx => rw [hx.1]
  · rfl

/-- Only the links downwards are set. -/
theorem word_setChildren (s : Store) (id : WordId) (g : List WordId → List WordId) (x : WordId) :
    (s.update id fun n => { n with children := g n.children }).word x =
      { s.word x with
        children := if x = id ∧ id.index < s.size then g (s.children x) else s.children x } := by
  rw [word_update]
  split
  · next hx => rw [hx.1]; rfl
  · rfl

/-! ## Detaching -/

@[simp] theorem size_detach (s : Store) (id : WordId) : (s.detach id).size = s.size := by
  unfold detach
  split
  · rfl
  · rw [size_update, size_update]

/-- Detaching leaves a word as it is, unless the detached one is among its arguments. -/
theorem agrees_detach {s : Store} {id x : WordId} (h : id ∉ s.children x) :
    s.Agrees (s.detach id) x := by
  unfold detach
  split
  · exact .of_word rfl
  · next p _ =>
    have hchildren := word_setChildren (s.update id fun n => { n with parent := none }) p
      (List.filter fun c => decide (c ≠ id)) x
    refine ⟨?_, ?_, ?_⟩
    · rw [token, hchildren, word_setParent]
      rfl
    · rw [quote, hchildren, word_setParent]
      rfl
    · rw [children, hchildren, children, word_setParent]
      simp only
      split
      · refine List.filter_eq_self.2 fun c hc => decide_eq_true fun heq => h (heq ▸ hc)
      · rfl

theorem Shows.mem_inner {s : Store} {P : Plot} (h : s.Shows P) {x y : WordId} (hx : x ∈ P.ids)
    (hy : y ∈ s.children x) : y ∈ P.inner := by
  induction h with
  | @node id token quote children _ _ _ hchildren _ ih =>
    rw [Plot.ids_node] at hx
    rcases List.mem_cons.1 hx with rfl | hx
    · rw [hchildren] at hy
      obtain ⟨Q, hQ, rfl⟩ := List.mem_map.1 hy
      exact Plot.mem_inner hQ Q.id_mem_ids
    · obtain ⟨Q, hQ, hx⟩ := List.mem_flatMap.1 hx
      exact Plot.mem_inner hQ (Q.mem_ids_of_mem_inner (ih Q hQ hx))

/-- A plot stays shown when something is detached that is not below its root. -/
theorem Shows.detach {s : Store} {P : Plot} (h : s.Shows P) {id : WordId} (hid : id ∉ P.inner) :
    (s.detach id).Shows P :=
  h.of_agrees (Nat.le_of_eq (size_detach s id).symm) fun _ hx =>
    agrees_detach fun hmem => hid (h.mem_inner hx hmem)

/-! ## Replacing -/

theorem replaced_replace {s : Store} {old new p : WordId} (hne : old ≠ new)
    (hnew : s.parent new = none) (hp : s.parent old = some p) (hlt : p.index < s.size) :
    s.Replaced old new p (s.replace old new).2 := by
  rw [replace, if_neg hne, detach_of_root hnew]
  simp only [hp]
  refine ⟨?_, fun x => ?_, fun x => ?_, fun x hx => ?_, ?_, fun x hold hx => ?_⟩
  · simp only [size_update]
  · simp only [token, word_setParent, word_setChildren _ p (exchange old new)]
  · simp only [quote, word_setParent, word_setChildren _ p (exchange old new)]
  · simp only [children, word_setParent, word_setChildren _ p (exchange old new), hx, false_and,
      if_false]
  · simp only [children, word_setParent, word_setChildren _ p (exchange old new), size_update, hlt,
      and_self, if_true]
  · simp only [parent, word_setParent, word_setChildren _ p (exchange old new), hold, hx, false_and,
      if_false]

/-- A plot stays shown when the word whose arguments change is not in it. -/
theorem Replaced.shows {s s' : Store} {old new p : WordId} (h : s.Replaced old new p s')
    {P : Plot} (hP : s.Shows P) (hp : p ∉ P.ids) : s'.Shows P := by
  refine hP.of_agrees (Nat.le_of_eq h.size_eq.symm) fun x hx =>
    ⟨h.token_eq x, h.quote_eq x, h.children_eq x ?_⟩
  rintro rfl
  exact hp hx

/-- Exchanging one of distinct ids is to relocate it. -/
theorem exchange_map {old new : WordId} {f g : WordId → WordId} (hnew : g old = new)
    {ids : List WordId} (hnodup : ids.Nodup) (hf : ∀ c ∈ ids, f c = old ↔ c = old)
    (hg : ∀ c ∈ ids, c ≠ old → g c = f c) : exchange old new (ids.map f) = ids.map g := by
  induction ids with
  | nil => rfl
  | cons c ids ih =>
    rw [List.nodup_cons] at hnodup
    have hfc := hf c List.mem_cons_self
    rw [List.map_cons, exchange, List.map_cons]
    by_cases hc : c = old
    · have hrest : ∀ d ∈ ids, g d = f d := by
        intro d hd
        refine hg d (List.mem_cons_of_mem c hd) ?_
        rintro rfl
        exact hnodup.1 (hc ▸ hd)
      rw [if_pos (hfc.2 hc), hc, hnew, List.map_congr_left hrest]
    · rw [if_neg fun h => hc (hfc.1 h), hg c List.mem_cons_self hc,
        ih hnodup.2 (fun d hd => hf d (List.mem_cons_of_mem c hd))
          fun d hd => hg d (List.mem_cons_of_mem c hd)]

/-! ## Several words, one after the other -/

/-- The words of the first store, with plots on fresh ids in the place of some of them. -/
structure Rewired (s₀ s : Store) (E : WordId → Option Plot) : Prop where
  size_le : s₀.size ≤ s.size
  token_eq : ∀ x : WordId, x.index < s₀.size → s.token x = s₀.token x
  quote_eq : ∀ x : WordId, x.index < s₀.size → s.quote x = s₀.quote x
  children_eq : ∀ x : WordId, x.index < s₀.size → s.children x = (s₀.children x).map (relocate E)
  parent_eq : ∀ x : WordId, x.index < s₀.size → E x = none → s.parent x = s₀.parent x
  shows : ∀ {x : WordId} {F : Plot}, E x = some F → s.Shows F
  nodup : ∀ {x : WordId} {F : Plot}, E x = some F → F.ids.Nodup
  fresh : ∀ {x : WordId} {F : Plot}, E x = some F → ∀ y ∈ F.ids, s₀.size ≤ y.index
  apart : ∀ {x y : WordId} {F G : Plot}, E x = some F → E y = some G → x ≠ y →
    ∀ z ∈ F.ids, z ∉ G.ids

variable {s₀ s : Store} {E : WordId → Option Plot}

theorem Rewired.refl (s : Store) : s.Rewired s fun _ => none := by
  refine ⟨Nat.le_refl _, fun _ _ => rfl, fun _ _ => rfl, fun x _ => ?_, fun _ _ _ => rfl,
    fun h => ?_, fun h => ?_, fun h => ?_, fun h => ?_⟩
  · exact (List.map_id' _).symm
  all_goals cases h

/-- What the first store showed, the other shows with the plots in their places. -/
theorem Rewired.shows_graft (h : s₀.Rewired s E) {P : Plot} (hP : s₀.Shows P) :
    s.Shows (P.graft E) := by
  induction hP with
  | @node id token quote children hid htoken hquote hchildren _ ih =>
    cases hE : E id with
    | some F =>
      rw [Plot.graft_some hE]
      exact h.shows hE
    | none =>
      rw [Plot.graft_none hE]
      refine .node (Nat.lt_of_lt_of_le hid h.size_le) (by rw [h.token_eq id hid, htoken])
        (by rw [h.quote_eq id hid, hquote]) ?_ fun G hG => ?_
      · rw [h.children_eq id hid, hchildren, List.map_map, List.map_map]
        exact List.map_congr_left fun Q _ => (Q.id_graft (E := E)).symm
      · obtain ⟨Q, hQ, rfl⟩ := List.mem_map.1 hG
        exact ih Q hQ

/-- Words that are added elsewhere change nothing of this. -/
theorem Rewired.extend {s' : Store} (h : s₀.Rewired s E) (hext : s.Extends s') :
    s₀.Rewired s' E := by
  have hword : ∀ x : WordId, x.index < s₀.size → s'.word x = s.word x := fun x hx =>
    hext.word_eq x (Nat.lt_of_lt_of_le hx h.size_le)
  refine ⟨Nat.le_trans h.size_le hext.size_le, fun x hx => ?_, fun x hx => ?_, fun x hx => ?_,
    fun x hx hE => ?_, fun hE => hext.shows (h.shows hE), h.nodup, h.fresh, h.apart⟩
  · rw [token, hword x hx]
    exact h.token_eq x hx
  · rw [quote, hword x hx]
    exact h.quote_eq x hx
  · rw [children, hword x hx]
    exact h.children_eq x hx
  · rw [parent, hword x hx]
    exact h.parent_eq x hx hE

/-- A fresh plot on its own, to be put in the place of a word that has kept its own. -/
structure Fresh (s₀ s : Store) (E : WordId → Option Plot) (F : Plot) : Prop where
  shows : s.Shows F
  nodup : F.ids.Nodup
  fresh : ∀ y ∈ F.ids, s₀.size ≤ y.index
  apart : ∀ {x : WordId} {G : Plot}, E x = some G → ∀ z ∈ G.ids, z ∉ F.ids
  root : s.parent F.id = none

theorem Fresh.ne {F : Plot} (hF : s₀.Fresh s E F) {k : WordId} (hk : k.index < s₀.size) :
    k ≠ F.id := by
  rintro rfl
  have := hF.fresh F.id F.id_mem_ids
  omega

theorem Rewired.relocate_eq_iff (h : s₀.Rewired s E) {k : WordId} (hk : k.index < s₀.size)
    (hE : E k = none) (x : WordId) : relocate E x = k ↔ x = k := by
  constructor
  · intro hx
    unfold relocate at hx
    split at hx
    · next F hF =>
      subst hx
      have := h.fresh hF F.id F.id_mem_ids
      omega
    · exact hx
  · rintro rfl
    unfold relocate
    rw [hE]

/-- The children that are found in the place of the former ones. -/
theorem Rewired.children_put (hs : s₀.WellFormed) (h : s₀.Rewired s E) {F : Plot} {k p : WordId}
    (hk : k.index < s₀.size) (hE : E k = none) :
    exchange k F.id ((s₀.children p).map (relocate E)) =
      (s₀.children p).map (relocate (putAt E k F)) := by
  refine exchange_map ?_ (hs.nodup p) (fun c _ => h.relocate_eq_iff hk hE c) fun c _ hc => ?_
  · rw [relocate_putAt, if_pos rfl]
  · rw [relocate_putAt, if_neg hc]

theorem map_relocate_putAt {F : Plot} {k : WordId} {ids : List WordId} (hk : k ∉ ids) :
    ids.map (relocate (putAt E k F)) = ids.map (relocate E) := by
  refine List.map_congr_left fun c hc => ?_
  rw [relocate_putAt, if_neg]
  rintro rfl
  exact hk hc

/-- One more word gives way to a plot. -/
theorem Rewired.put (hs : s₀.WellFormed) (h : s₀.Rewired s E) {F : Plot} (hF : s₀.Fresh s E F)
    {k p : WordId} (hk : k.index < s₀.size) (hE : E k = none) (hp : s₀.parent k = some p) :
    s₀.Rewired (s.replace k F.id).2 (putAt E k F) := by
  have hplt := hs.parent_lt hp
  have hreplaced := replaced_replace (hF.ne hk) hF.root ((h.parent_eq k hk hE).trans hp)
    (Nat.lt_of_lt_of_le hplt h.size_le)
  -- the words of the plots are fresh, so none of them is the one whose arguments change
  have hshown : ∀ {G : Plot}, s.Shows G → (∀ y ∈ G.ids, s₀.size ≤ y.index) →
      (s.replace k F.id).2.Shows G := by
    intro G hG hfresh
    refine hreplaced.shows hG fun hmem => ?_
    have := hfresh p hmem
    omega
  refine ⟨?_, fun x hx => ?_, fun x hx => ?_, fun x hx => ?_, fun x hx hnone => ?_, fun hG => ?_,
    fun hG => ?_, fun hG => ?_, fun hG hG' hne z hz => ?_⟩
  · rw [hreplaced.size_eq]
    exact h.size_le
  · rw [hreplaced.token_eq, h.token_eq x hx]
  · rw [hreplaced.quote_eq, h.quote_eq x hx]
  · by_cases hxp : x = p
    · rw [hxp, hreplaced.exchanged, h.children_eq p hplt, h.children_put hs hk hE]
    · rw [hreplaced.children_eq x hxp, h.children_eq x hx, map_relocate_putAt]
      intro hmem
      exact hxp (Option.some.inj ((hs.linked.1 hmem).symm.trans hp))
  · unfold putAt at hnone
    split at hnone
    · cases hnone
    · next hxk =>
      rw [hreplaced.parent_eq x hxk (hF.ne hx), h.parent_eq x hx hnone]
  · rcases putAt_eq_some hG with ⟨_, rfl⟩ | ⟨_, hG⟩
    · exact hshown hF.shows hF.fresh
    · exact hshown (h.shows hG) (h.fresh hG)
  · rcases putAt_eq_some hG with ⟨_, rfl⟩ | ⟨_, hG⟩
    · exact hF.nodup
    · exact h.nodup hG
  · rcases putAt_eq_some hG with ⟨_, rfl⟩ | ⟨_, hG⟩
    · exact hF.fresh
    · exact h.fresh hG
  · rcases putAt_eq_some hG with ⟨hx, rfl⟩ | ⟨_, hold⟩
    · rcases putAt_eq_some hG' with ⟨hy, _⟩ | ⟨_, hold'⟩
      · exact absurd (hx.trans hy.symm) hne
      · exact fun hz' => hF.apart hold' z hz' hz
    · rcases putAt_eq_some hG' with ⟨_, rfl⟩ | ⟨_, hold'⟩
      · exact hF.apart hold z hz
      · exact h.apart hold hold' hne z hz

/-- A term is planted, and put in the place of a word that has kept its own so far. -/
theorem Rewired.replant (hs : s₀.WellFormed) (h : s₀.Rewired s E) (e : Term) {k p : WordId}
    (hk : k.index < s₀.size) (hE : E k = none) (hp : s₀.parent k = some p) :
    ∃ F : Plot, F.term = e ∧
      s₀.Rewired ((s.plant e).2.replace k (s.plant e).1).2 (putAt E k F) := by
  obtain ⟨F, hid, hterm, hsown, hroot⟩ := plant_spec e s
  have hfresh : ∀ y ∈ F.ids, s.size ≤ y.index := fun y hy =>
    hsown.fresh y (List.mem_flatMap.2 ⟨F, List.mem_cons_self, hy⟩)
  have hF : s₀.Fresh (s.plant e).2 E F := by
    refine ⟨hsown.shows F List.mem_cons_self, ?_, fun y hy => ?_, fun {x G} hG z hz hz' => ?_, hroot⟩
    · have := hsown.nodup
      rwa [List.flatMap_singleton] at this
    · exact Nat.le_trans h.size_le (hfresh y hy)
    · have hlt := (h.shows hG).ids_lt z hz
      have hge := hfresh z hz'
      omega
  refine ⟨F, hterm, ?_⟩
  rw [← hid]
  exact (h.extend hsown.extension).put hs hF hk hE hp

/-- The new whole has distinct ids if the old one had. -/
theorem Rewired.nodup_graft (h : s₀.Rewired s E) {P : Plot} (hP : s₀.Shows P)
    (hnodup : P.ids.Nodup) : (P.graft E).ids.Nodup := by
  induction P using Plot.induction with
  | node id token quote children ih =>
    cases hE : E id with
    | some F =>
      rw [Plot.graft_some hE]
      exact h.nodup hE
    | none =>
      rw [Plot.graft_none hE, Plot.nodup_node, List.flatMap_map]
      rw [Plot.nodup_node] at hnodup
      obtain ⟨hid, hdistinct⟩ := List.pairwise_flatMap.1 hnodup.2
      refine ⟨fun hmem => ?_, List.pairwise_flatMap.2 ⟨fun Q hQ => ?_, ?_⟩⟩
      · obtain ⟨Q, hQ, hmem⟩ := List.mem_flatMap.1 hmem
        rcases Plot.mem_ids_graft hmem with hold | ⟨x, _, F, hF, hnew⟩
        · exact hnodup.1 (List.mem_flatMap.2 ⟨Q, hQ, hold⟩)
        · have hge := h.fresh hF id hnew
          have := hP.id_lt
          rw [Plot.id] at this
          omega
      · exact ih Q hQ (hP.child hQ) (hid Q hQ)
      · refine hdistinct.imp_of_mem fun {Q R} hQ hR hQR y hy z hz hyz => ?_
        subst hyz
        have hltQ := (hP.child hQ).ids_lt
        have hltR := (hP.child hR).ids_lt
        rcases Plot.mem_ids_graft hy with hy | ⟨x, hx, F, hF, hy⟩
        · rcases Plot.mem_ids_graft hz with hz | ⟨x', _, F', hF', hz⟩
          · exact hQR y hy y hz rfl
          · have hge := h.fresh hF' y hz
            have := hltQ y hy
            omega
        · rcases Plot.mem_ids_graft hz with hz | ⟨x', hx', F', hF', hz⟩
          · have hge := h.fresh hF y hy
            have := hltR y hz
            omega
          · exact h.apart hF hF' (hQR x hx x' hx') y hy hz

end Store
end ResourceQuery

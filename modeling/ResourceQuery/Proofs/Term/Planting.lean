import ResourceQuery.Proofs.Term.WellFormed

set_option autoImplicit false

/-!
# Terms in a store: planting

A term that is planted is shown on fresh ids, with nothing above it; and nothing
that was in the store before is touched.  A well-formed store stays well-formed.

`Sown` is the invariant of everything that is built in a store: plots on fresh
ids, apart from each other, beside what was there.  A new word over some of
them, or one of them put in front of the arguments of another, keeps it.
-/

namespace ResourceQuery.Store

/-! ## Stores that grow -/

/-- The words of the one store are words of the other. -/
structure Extends (s s' : Store) : Prop where
  size_le : s.size ≤ s'.size
  word_eq : ∀ x : WordId, x.index < s.size → s'.word x = s.word x

theorem Extends.refl (s : Store) : s.Extends s := ⟨Nat.le_refl _, fun _ _ => rfl⟩

theorem Extends.trans {s s' s'' : Store} (h : s.Extends s') (h' : s'.Extends s'') :
    s.Extends s'' := by
  refine ⟨Nat.le_trans h.size_le h'.size_le, fun x hx => ?_⟩
  rw [h'.word_eq x (Nat.lt_of_lt_of_le hx h.size_le), h.word_eq x hx]

/-- What a store shows, it still shows when it has grown. -/
theorem Extends.shows {s s' : Store} (h : s.Extends s') {P : Plot} (hP : s.Shows P) :
    s'.Shows P :=
  hP.of_agrees h.size_le fun x hx => .of_word (h.word_eq x (hP.ids_lt x hx))

/-! ## Putting arguments under a word -/

@[simp] theorem size_insertChild (s : Store) (p : WordId) (index : Nat) (c : WordId) :
    (s.insertChild p index c).size = s.size := by
  simp [insertChild]

/-- An argument is put among those that are there. -/
theorem word_insertChild {s : Store} {p c : WordId} (hp : p.index < s.size)
    (hc : c.index < s.size) (hne : c ≠ p) (index : Nat) (x : WordId) :
    (s.insertChild p index c).word x =
      if x = c then { s.word c with parent := some p }
      else if x = p then { s.word p with children := (s.children p).insertIdx index c }
      else s.word x := by
  simp only [insertChild, word_update, size_update, hc, hp, and_true, hne, if_false, children]

/-- Only the word above gets the argument, at its place. -/
theorem children_insertChild {s : Store} {p c : WordId} (hp : p.index < s.size)
    (hc : c.index < s.size) (hne : c ≠ p) (index : Nat) (x : WordId) :
    (s.insertChild p index c).children x =
      if x = p then (s.children p).insertIdx index c else s.children x := by
  rw [children, word_insertChild hp hc hne]
  by_cases hxc : x = c
  · rw [if_pos hxc, if_neg (hxc ▸ hne), hxc, children]
  · rw [if_neg hxc]
    split <;> rfl

/-- Only the argument gets another word above it. -/
theorem parent_insertChild {s : Store} {p c : WordId} (hp : p.index < s.size)
    (hc : c.index < s.size) (hne : c ≠ p) (index : Nat) (x : WordId) :
    (s.insertChild p index c).parent x = if x = c then some p else s.parent x := by
  rw [parent, word_insertChild hp hc hne]
  by_cases hxc : x = c
  · rw [if_pos hxc, if_pos hxc]
  · rw [if_neg hxc, if_neg hxc]
    split
    · next hxp => rw [hxp, parent]
    · rfl

/-- Only the word that gets an argument changes, apart from what stands above the argument. -/
theorem agrees_insertChild {s : Store} {p c : WordId} (hp : p.index < s.size)
    (hc : c.index < s.size) (hne : c ≠ p) (index : Nat) {x : WordId} (hx : x ≠ p) :
    s.Agrees (s.insertChild p index c) x := by
  have hword := word_insertChild hp hc hne index x
  by_cases hxc : x = c
  · subst hxc
    rw [if_pos rfl] at hword
    exact ⟨by rw [token, hword]; rfl, by rw [quote, hword]; rfl, by rw [children, hword]; rfl⟩
  · rw [if_neg hxc, if_neg hx] at hword
    exact .of_word hword

@[simp] theorem size_pushChild (s : Store) (p c : WordId) : (s.pushChild p c).size = s.size := by
  simp [pushChild]

/-- An argument is put behind those that are there. -/
theorem word_pushChild {s : Store} {p c : WordId} (hp : p.index < s.size)
    (hc : c.index < s.size) (hne : c ≠ p) (x : WordId) :
    (s.pushChild p c).word x =
      if x = c then { s.word c with parent := some p }
      else if x = p then { s.word p with children := s.children p ++ [c] }
      else s.word x := by
  rw [pushChild, word_insertChild hp hc hne, List.insertIdx_length_self]

/-- Several arguments are put under a word. -/
theorem pushChildren_spec (p : WordId) (ids : List WordId) :
    ∀ {s : Store}, p.index < s.size → (∀ c ∈ ids, c.index < s.size ∧ c ≠ p) →
      let s' := ids.foldl (fun s c => s.pushChild p c) s
      s'.size = s.size ∧
      s'.word p = { s.word p with children := s.children p ++ ids } ∧
      (∀ x, x ≠ p → s.Agrees s' x) ∧ ∀ x, x ≠ p → x ∉ ids → s'.word x = s.word x := by
  induction ids with
  | nil =>
    intro s _ _
    refine ⟨rfl, ?_, fun x _ => .of_word rfl, fun x _ _ => rfl⟩
    simp [children]
  | cons c ids ih =>
    intro s hp hids
    obtain ⟨hc, hne⟩ := hids c List.mem_cons_self
    have hsize := size_pushChild s p c
    have hword := word_pushChild hp hc hne
    have hp' : p.index < (s.pushChild p c).size := by rw [hsize]; exact hp
    have hids' : ∀ c' ∈ ids, c'.index < (s.pushChild p c).size ∧ c' ≠ p := by
      intro c' hc'
      rw [hsize]
      exact hids c' (List.mem_cons_of_mem c hc')
    obtain ⟨hsize', hroot, hagrees, hothers⟩ := ih hp' hids'
    have hwordp : (s.pushChild p c).word p =
        { s.word p with children := s.children p ++ [c] } := by
      rw [hword p, if_neg (Ne.symm hne), if_pos rfl]
    refine ⟨?_, ?_, ?_, ?_⟩
    · rw [List.foldl_cons, hsize', hsize]
    · rw [List.foldl_cons, hroot, children, hwordp]
      simp
    · intro x hx
      exact (agrees_insertChild hp hc hne _ hx).trans (hagrees x hx)
    · intro x hx hmem
      rw [List.mem_cons, not_or] at hmem
      rw [List.foldl_cons, hothers x hx hmem.2, hword x, if_neg hmem.1, if_neg hx]

/-- A new word over arguments that are in the store. -/
theorem adopt_spec (s : Store) (token : String) (quote : Option Quote) {ids : List WordId}
    (hids : ∀ c ∈ ids, c.index < s.size) :
    let s' := (s.adopt token quote ids).2
    (s.adopt token quote ids).1 = ⟨s.size⟩ ∧ s'.size = s.size + 1 ∧
      s'.word ⟨s.size⟩ = ⟨token, quote, ids, none⟩ ∧
      (∀ x, x.index < s.size → s.Agrees s' x) ∧
      ∀ x, x.index < s.size → x ∉ ids → s'.word x = s.word x := by
  have hne : ∀ x : WordId, x.index < s.size → x ≠ ⟨s.size⟩ := by
    rintro x hx rfl
    exact Nat.lt_irrefl _ hx
  have hleaf : ∀ x : WordId, x.index < s.size →
      (s.leaf token quote).2.word x = s.word x := by
    intro x hx
    rw [word_leaf, if_neg (hne x hx)]
  have hnew : (s.leaf token quote).2.word ⟨s.size⟩ = ⟨token, quote, [], none⟩ := by
    rw [word_leaf, if_pos rfl]
  obtain ⟨hsize, hroot, hagrees, hothers⟩ := pushChildren_spec ⟨s.size⟩ ids
    (s := (s.leaf token quote).2) (by rw [size_leaf]; exact Nat.lt_succ_self _) (by
      intro c hc
      have hlt := hids c hc
      rw [size_leaf]
      exact ⟨Nat.lt_succ_of_lt hlt, hne c hlt⟩)
  refine ⟨rfl, ?_, ?_, ?_, ?_⟩
  · rw [adopt]
    exact hsize.trans (size_leaf s token quote)
  · rw [children, hnew] at hroot
    exact hroot
  · intro x hx
    exact (Agrees.of_word (hleaf x hx)).trans (hagrees x (hne x hx))
  · intro x hx hmem
    exact (hothers x (hne x hx) hmem).trans (hleaf x hx)

/-! ## Planting -/

/-- The plots are shown on distinct fresh ids, and what was there before is not touched. -/
structure Sown (s : Store) (Ps : List Plot) (s' : Store) : Prop where
  extension : s.Extends s'
  shows : ∀ P ∈ Ps, s'.Shows P
  nodup : (Ps.flatMap Plot.ids).Nodup
  fresh : ∀ x ∈ Ps.flatMap Plot.ids, s.size ≤ x.index

theorem Sown.nil (s : Store) : s.Sown [] s :=
  ⟨.refl s, fun _ h => absurd h List.not_mem_nil, List.nodup_nil,
    fun _ h => absurd h List.not_mem_nil⟩

theorem Sown.ids_lt {s s' : Store} {Ps : List Plot} (h : s.Sown Ps s') :
    ∀ x ∈ Ps.flatMap Plot.ids, x.index < s'.size := by
  intro x hx
  obtain ⟨P, hP, hx⟩ := List.mem_flatMap.1 hx
  exact (h.shows P hP).ids_lt x hx

/-- Plots that are sown after others come to lie behind them. -/
theorem Sown.append {s s' s'' : Store} {Ps Qs : List Plot} (h : s.Sown Ps s')
    (h' : s'.Sown Qs s'') : s.Sown (Ps ++ Qs) s'' := by
  refine ⟨h.extension.trans h'.extension, ?_, ?_, ?_⟩
  · intro P hP
    rcases List.mem_append.1 hP with hP | hP
    · exact h'.extension.shows (h.shows P hP)
    · exact h'.shows P hP
  · rw [List.flatMap_append, List.nodup_append]
    refine ⟨h.nodup, h'.nodup, ?_⟩
    rintro x hx y hy rfl
    have hlt := h.ids_lt x hx
    have hge := h'.fresh x hy
    omega
  · intro x hx
    rw [List.flatMap_append] at hx
    rcases List.mem_append.1 hx with hx | hx
    · exact h.fresh x hx
    · exact Nat.le_trans h.extension.size_le (h'.fresh x hx)

/-- The order of the plots does not matter. -/
theorem Sown.perm {s s' : Store} {Ps Qs : List Plot} (h : s.Sown Ps s') (hperm : Ps.Perm Qs) :
    s.Sown Qs s' := by
  have hids : (Ps.flatMap Plot.ids).Perm (Qs.flatMap Plot.ids) := hperm.flatMap_right _
  exact ⟨h.extension, fun P hP => h.shows P (hperm.mem_iff.2 hP), hids.nodup_iff.1 h.nodup,
    fun x hx => h.fresh x (hids.mem_iff.2 hx)⟩

theorem Sown.fresh_id {s s' : Store} {Ps : List Plot} (h : s.Sown Ps s') {P : Plot}
    (hP : P ∈ Ps) : s.size ≤ P.id.index :=
  h.fresh P.id (List.mem_flatMap.2 ⟨P, hP, P.id_mem_ids⟩)

/-- What is read at the root of a plot that was sown. -/
theorem Sown.read_eq {s s' : Store} {Ps : List Plot} (h : s.Sown Ps s') {P : Plot}
    (hP : P ∈ Ps) : s'.read P.id = P.term :=
  (h.shows P hP).read_eq ((List.pairwise_flatMap.1 h.nodup).1 P hP)

/-- A new word over the roots of some of the plots that were sown. -/
theorem Sown.adopt {s s' : Store} {Ps Qs : List Plot} (h : s.Sown (Ps ++ Qs) s') (token : String)
    (quote : Option Quote) :
    s.Sown (.node ⟨s'.size⟩ token quote Ps :: Qs) (s'.adopt token quote (Ps.map Plot.id)).2 := by
  have hids : ∀ c ∈ Ps.map Plot.id, c.index < s'.size := by
    intro c hc
    obtain ⟨P, hP, rfl⟩ := List.mem_map.1 hc
    exact (h.shows P (List.mem_append_left _ hP)).id_lt
  obtain ⟨_, hsize, hroot, hagrees, hothers⟩ := adopt_spec s' token quote hids
  have hkept : ∀ P ∈ Ps ++ Qs, (s'.adopt token quote (Ps.map Plot.id)).2.Shows P := by
    intro P hP
    have hP' := h.shows P hP
    exact hP'.of_agrees (by rw [hsize]; omega) fun x hx => hagrees x (hP'.ids_lt x hx)
  have hshows : (s'.adopt token quote (Ps.map Plot.id)).2.Shows
      (.node ⟨s'.size⟩ token quote Ps) :=
    .node (by rw [hsize]; exact Nat.lt_succ_self _) (by rw [Store.token, hroot])
      (by rw [Store.quote, hroot]) (by rw [Store.children, hroot])
      fun P hP => hkept P (List.mem_append_left _ hP)
  have hplots : (Plot.node ⟨s'.size⟩ token quote Ps :: Qs).flatMap Plot.ids =
      ⟨s'.size⟩ :: (Ps ++ Qs).flatMap Plot.ids := by
    rw [List.flatMap_cons, Plot.ids_node, List.cons_append, List.flatMap_append]
  refine ⟨⟨by rw [hsize]; exact Nat.le_succ_of_le h.extension.size_le, ?_⟩, ?_, ?_, ?_⟩
  · intro x hx
    rw [hothers x (Nat.lt_of_lt_of_le hx h.extension.size_le) ?_, h.extension.word_eq x hx]
    intro hmem
    obtain ⟨P, hP, rfl⟩ := List.mem_map.1 hmem
    have := h.fresh_id (List.mem_append_left _ hP)
    omega
  · intro P hP
    rcases List.mem_cons.1 hP with rfl | hP
    · exact hshows
    · exact hkept P (List.mem_append_right _ hP)
  · rw [hplots, List.nodup_cons]
    exact ⟨fun hmem => Nat.lt_irrefl _ (h.ids_lt _ hmem), h.nodup⟩
  · intro x hx
    rw [hplots] at hx
    rcases List.mem_cons.1 hx with rfl | hx
    · exact h.extension.size_le
    · exact h.fresh x hx

/-- A plot without the word that gets an argument is left alone. -/
theorem Shows.insertChild {s : Store} {P : Plot} (h : s.Shows P) {p c : WordId}
    (hp : p.index < s.size) (hc : c.index < s.size) (hne : c ≠ p) (index : Nat)
    (hroot : p ∉ P.ids) : (s.insertChild p index c).Shows P := by
  refine h.of_agrees (Nat.le_of_eq (size_insertChild s p index c).symm) fun x hx => ?_
  refine agrees_insertChild hp hc hne index ?_
  rintro rfl
  exact hroot hx

/-- A plot is put in front of the arguments of another that it has no words in common with. -/
theorem Shows.insertFirst {s : Store} {K : Plot} {id : WordId} {token : String}
    {quote : Option Quote} {Ps : List Plot} (hK : s.Shows K)
    (h : s.Shows (.node id token quote Ps)) (hroot : ∀ P ∈ K :: Ps, id ∉ P.ids) :
    (s.insertChild id 0 K.id).Shows (.node id token quote (K :: Ps)) := by
  cases h with
  | node hid htoken hquote hchildren hall =>
    have hne : K.id ≠ id := fun heq => hroot K List.mem_cons_self (heq ▸ K.id_mem_ids)
    have hword := word_insertChild hid hK.id_lt hne 0 id
    rw [if_neg (Ne.symm hne), if_pos rfl, hchildren, List.insertIdx_zero] at hword
    refine .node (by rw [size_insertChild]; exact hid) ?_ ?_ ?_ fun P hP => ?_
    · rw [Store.token, hword]
      exact htoken
    · rw [Store.quote, hword]
      exact hquote
    · rw [Store.children, hword]
      rfl
    · refine Shows.insertChild ?_ hid hK.id_lt hne 0 (hroot P hP)
      rcases List.mem_cons.1 hP with rfl | hP
      · exact hK
      · exact hall P hP

/-- One of the plots that were sown is put in front of the arguments of another. -/
theorem Sown.insertFirst {s s' : Store} {K : Plot} {id : WordId} {token : String}
    {quote : Option Quote} {Ps Qs : List Plot}
    (h : s.Sown (K :: .node id token quote Ps :: Qs) s') :
    s.Sown (.node id token quote (K :: Ps) :: Qs) (s'.insertChild id 0 K.id) := by
  have hmem : Plot.node id token quote Ps ∈ K :: .node id token quote Ps :: Qs :=
    List.mem_cons_of_mem K List.mem_cons_self
  have hK := h.shows K List.mem_cons_self
  have hnode := h.shows _ hmem
  have hid : id.index < s'.size := hnode.id_lt
  -- the root of the call changes places with the words of its new argument
  have hbefore : (K :: .node id token quote Ps :: Qs).flatMap Plot.ids =
      K.ids ++ id :: (Ps ++ Qs).flatMap Plot.ids := by
    rw [List.flatMap_cons, List.flatMap_cons, Plot.ids_node, List.cons_append,
      ← List.flatMap_append]
  have hafter : (Plot.node id token quote (K :: Ps) :: Qs).flatMap Plot.ids =
      id :: (K.ids ++ (Ps ++ Qs).flatMap Plot.ids) := by
    rw [List.flatMap_cons, Plot.ids_node, List.cons_append, List.flatMap_cons,
      List.append_assoc, ← List.flatMap_append]
  have hperm : ((K :: .node id token quote Ps :: Qs).flatMap Plot.ids).Perm
      ((Plot.node id token quote (K :: Ps) :: Qs).flatMap Plot.ids) := by
    rw [hbefore, hafter]
    exact List.perm_middle
  have hnodup := hperm.nodup_iff.1 h.nodup
  have hroot : ∀ P ∈ K :: (Ps ++ Qs), id ∉ P.ids := by
    rw [hafter, List.nodup_cons, ← List.flatMap_cons] at hnodup
    exact fun P hP hin => hnodup.1 (List.mem_flatMap.2 ⟨P, hP, hin⟩)
  have hne : K.id ≠ id := fun heq => hroot K List.mem_cons_self (heq ▸ K.id_mem_ids)
  refine ⟨⟨?_, fun x hx => ?_⟩, fun P hP => ?_, hnodup, fun x hx => h.fresh x (hperm.mem_iff.2 hx)⟩
  · rw [size_insertChild]
    exact h.extension.size_le
  · have hxK : x ≠ K.id := by
      rintro rfl
      exact Nat.not_lt_of_le (h.fresh_id List.mem_cons_self) hx
    have hxid : x ≠ id := by
      rintro rfl
      exact Nat.not_lt_of_le (h.fresh_id hmem) hx
    rw [word_insertChild hid hK.id_lt hne, if_neg hxK, if_neg hxid, h.extension.word_eq x hx]
  · rcases List.mem_cons.1 hP with rfl | hP
    · refine hK.insertFirst hnode fun P hP => hroot P ?_
      rcases List.mem_cons.1 hP with rfl | hP
      · exact List.mem_cons_self
      · exact List.mem_cons_of_mem K (List.mem_append_left _ hP)
    · have hshows := h.shows P (List.mem_cons_of_mem K (List.mem_cons_of_mem _ hP))
      exact hshows.insertChild hid hK.id_lt hne 0
        (hroot P (List.mem_cons_of_mem K (List.mem_append_right _ hP)))

/-- Nothing is above a new word. -/
theorem parent_adopt {s : Store} (token : String) (quote : Option Quote) {ids : List WordId}
    (hids : ∀ c ∈ ids, c.index < s.size) :
    (s.adopt token quote ids).2.parent (s.adopt token quote ids).1 = none := by
  obtain ⟨hid, _, hroot, _⟩ := adopt_spec s token quote hids
  rw [hid, parent, hroot]

mutual

/-- A term that is planted is sown, with nothing above it. -/
theorem plant_spec : ∀ (t : Term) (s : Store), ∃ P : Plot, P.id = (s.plant t).1 ∧ P.term = t ∧
    s.Sown [P] (s.plant t).2 ∧ (s.plant t).2.parent P.id = none
  | .node token quote children, s => by
    obtain ⟨Ps, hids, hterms, hsown, _⟩ := plantAll_spec children s
    have hlt : ∀ c ∈ Ps.map Plot.id, c.index < (s.plantAll children).2.size := by
      intro c hc
      obtain ⟨P, hP, rfl⟩ := List.mem_map.1 hc
      exact (hsown.shows P hP).id_lt
    have hplanted := Sown.adopt ((List.append_nil Ps).symm ▸ hsown) token quote
    have hparent := parent_adopt token quote hlt
    rw [hids] at hplanted hparent
    refine ⟨.node ⟨(s.plantAll children).2.size⟩ token quote Ps, ?_, ?_, ?_, ?_⟩
    · rw [plant]; rfl
    · rw [Plot.term_node, hterms]
    · rw [plant]; exact hplanted
    · rw [plant]; exact hparent

/-- Terms that are planted one after the other. -/
theorem plantAll_spec : ∀ (ts : List Term) (s : Store), ∃ Ps : List Plot,
    Ps.map Plot.id = (s.plantAll ts).1 ∧ Ps.map Plot.term = ts ∧ s.Sown Ps (s.plantAll ts).2 ∧
      ∀ P ∈ Ps, (s.plantAll ts).2.parent P.id = none
  | [], s => by
    rw [plantAll]
    exact ⟨[], rfl, rfl, .nil s, fun _ h => absurd h List.not_mem_nil⟩
  | t :: ts, s => by
    obtain ⟨P, hid, hterm, hsown, hroot⟩ := plant_spec t s
    obtain ⟨Ps, hids, hterms, hsowns, hroots⟩ := plantAll_spec ts (s.plant t).2
    rw [plantAll]
    refine ⟨P :: Ps, ?_, ?_, hsown.append hsowns, fun Q hQ => ?_⟩
    · rw [List.map_cons, hid, hids]
    · rw [List.map_cons, hterm, hterms]
    · rcases List.mem_cons.1 hQ with rfl | hQ
      · have hlt := (hsown.shows Q List.mem_cons_self).id_lt
        rw [parent, hsowns.extension.word_eq Q.id hlt]
        exact hroot
      · exact hroots Q hQ

end

theorem extends_plant (s : Store) (t : Term) : s.Extends (s.plant t).2 := by
  obtain ⟨_, _, _, hsown, _⟩ := plant_spec t s
  exact hsown.extension

theorem extends_plantAll (s : Store) (ts : List Term) : s.Extends (s.plantAll ts).2 := by
  obtain ⟨_, _, _, hsown, _⟩ := plantAll_spec ts s
  exact hsown.extension

/-! ## Well-formed stores that grow -/

theorem WellFormed.empty : Store.empty.WellFormed := by
  have hword : ∀ x : WordId, Store.empty.word x = ⟨"", none, [], none⟩ := fun x =>
    word_of_size_le (Nat.zero_le _)
  have hchildren : ∀ x : WordId, Store.empty.children x = [] := fun x => by
    rw [children, hword]
  have hparent : ∀ x : WordId, Store.empty.parent x = none := fun x => by
    rw [parent, hword]
  refine ⟨fun {p c} h => ?_, fun {p c} h => ?_, fun {p c} => ?_, fun p => ?_, fun id => ?_⟩
  · rw [hchildren] at h
    cases h
  · rw [hparent] at h
    cases h
  · rw [hchildren, hparent]
    simp
  · rw [hchildren]
    exact List.nodup_nil
  · exact ⟨0, .root (hparent id)⟩

/-- A store with the same links, and no fewer words. -/
theorem WellFormed.of_links {s s' : Store} (hs : s.WellFormed) (hsize : s.size ≤ s'.size)
    (hchildren : ∀ x, s'.children x = s.children x) (hparent : ∀ x, s'.parent x = s.parent x) :
    s'.WellFormed := by
  refine ⟨fun {p c} h => ?_, fun {p c} h => ?_, fun {p c} => ?_, fun p => ?_, fun id => ?_⟩
  · rw [hchildren] at h
    exact Nat.lt_of_lt_of_le (hs.child_lt h) hsize
  · rw [hparent] at h
    exact Nat.lt_of_lt_of_le (hs.parent_lt h) hsize
  · rw [hchildren, hparent]
    exact hs.linked
  · rw [hchildren]
    exact hs.nodup p
  · obtain ⟨n, hdepth⟩ := hs.rooted id
    refine ⟨n, ?_⟩
    induction hdepth with
    | root h => exact .root ((hparent _).trans h)
    | under h _ ih => exact .under ((hparent _).trans h) ih

/-- A leaf has no links, so it does not matter. -/
theorem WellFormed.leaf {s : Store} (hs : s.WellFormed) (token : String) (quote : Option Quote) :
    (s.leaf token quote).2.WellFormed := by
  have hnew := word_of_size_le (s := s) (x := ⟨s.size⟩) (Nat.le_refl _)
  refine hs.of_links (by rw [size_leaf]; exact Nat.le_succ _) (fun x => ?_) fun x => ?_
  · rw [children, word_leaf, children]
    split
    · next hx => rw [hx, hnew]
    · rfl
  · rw [parent, word_leaf, parent]
    split
    · next hx => rw [hx, hnew]
    · rfl

/-- A word without one above it is put among the arguments of another, which is
not below it. -/
theorem WellFormed.insertChild {s : Store} (hs : s.WellFormed) {p c : WordId} {index : Nat}
    (hp : p.index < s.size) (hc : c.index < s.size) (hroot : s.parent c = none)
    (habove : ¬s.Above c p) (hindex : index ≤ (s.children p).length) :
    (s.insertChild p index c).WellFormed := by
  have hne : c ≠ p := by
    rintro rfl
    exact habove .refl
  have hchildren := children_insertChild hp hc hne index
  have hparent := parent_insertChild hp hc hne index
  -- the word that is put there was no one's argument
  have hnew : ∀ q, c ∉ s.children q := by
    intro q hmem
    cases hroot.symm.trans (hs.linked.1 hmem)
  refine ⟨fun {q d} h => ?_, fun {q d} h => ?_, fun {q d} => ?_, fun q => ?_, fun id => ?_⟩
  · rw [size_insertChild]
    rw [hchildren] at h
    split at h
    · rcases (List.mem_insertIdx hindex).1 h with rfl | h
      · exact hc
      · exact hs.child_lt h
    · exact hs.child_lt h
  · rw [size_insertChild]
    rw [hparent] at h
    split at h
    · cases h
      exact hp
    · exact hs.parent_lt h
  · rw [hchildren, hparent]
    by_cases hd : d = c
    · rw [if_pos hd, Option.some.injEq, hd]
      by_cases hq : q = p
      · simp [hq, List.mem_insertIdx hindex]
      · simp [hq, hnew q, Ne.symm hq]
    · rw [if_neg hd, ← hs.linked]
      by_cases hq : q = p
      · simp [hq, hd, List.mem_insertIdx hindex]
      · rw [if_neg hq]
  · rw [hchildren]
    split
    · rw [(List.perm_insertIdx c _ hindex).nodup_iff, List.nodup_cons]
      exact ⟨hnew p, hs.nodup p⟩
    · exact hs.nodup q
  · -- going up from a word that the argument is not above leads where it led before
    have haside : ∀ {x : WordId} {n : Nat}, s.Depth x n → ¬s.Above c x →
        (s.insertChild p index c).Depth x n := by
      intro x n hdepth
      induction hdepth with
      | @root x h =>
        intro haside
        have hx : x ≠ c := by
          rintro rfl
          exact haside .refl
        exact .root (by rw [hparent, if_neg hx, h])
      | @under x q n h _ ih =>
        intro haside
        have hx : x ≠ c := by
          rintro rfl
          exact haside .refl
        exact .under (by rw [hparent, if_neg hx, h]) (ih fun hq => haside (.up h hq))
    obtain ⟨m, hm⟩ := hs.rooted p
    obtain ⟨n, hdepth⟩ := hs.rooted id
    induction hdepth with
    | @root x h =>
      by_cases hx : x = c
      · exact ⟨m + 1, .under (by rw [hparent, if_pos hx]) (haside hm habove)⟩
      · exact ⟨0, .root (by rw [hparent, if_neg hx, h])⟩
    | @under x q n h _ ih =>
      have hx : x ≠ c := by
        rintro rfl
        cases hroot.symm.trans h
      obtain ⟨k, hk⟩ := ih
      exact ⟨k + 1, .under (by rw [hparent, if_neg hx, h]) hk⟩

/-- A word without one above it is put under another such word. -/
theorem WellFormed.pushChild {s : Store} (hs : s.WellFormed) {p c : WordId}
    (hp : p.index < s.size) (hc : c.index < s.size) (hne : c ≠ p) (hproot : s.parent p = none)
    (hcroot : s.parent c = none) : (s.pushChild p c).WellFormed :=
  hs.insertChild hp hc hcroot (fun habove => hne (habove.eq_of_root hproot)) (Nat.le_refl _)

/-- Words without one above them are put under another such word. -/
theorem WellFormed.pushChildren {p : WordId} (ids : List WordId) :
    ∀ {s : Store}, s.WellFormed → p.index < s.size → s.parent p = none → ids.Nodup →
      (∀ c ∈ ids, c.index < s.size ∧ c ≠ p ∧ s.parent c = none) →
      (ids.foldl (fun s c => s.pushChild p c) s).WellFormed := by
  induction ids with
  | nil =>
    intro s hs _ _ _ _
    exact hs
  | cons c ids ih =>
    intro s hs hp hproot hnodup hids
    rw [List.nodup_cons] at hnodup
    obtain ⟨hc, hne, hcroot⟩ := hids c List.mem_cons_self
    have hparent : ∀ x, x ≠ c → (s.pushChild p c).parent x = s.parent x := by
      intro x hx
      rw [Store.pushChild, parent_insertChild hp hc hne, if_neg hx]
    rw [List.foldl_cons]
    refine ih (hs.pushChild hp hc hne hproot hcroot) ?_ ?_ hnodup.2 fun d hd => ?_
    · rw [size_pushChild]
      exact hp
    · rw [hparent p (Ne.symm hne), hproot]
    · obtain ⟨hlt, hdp, hdroot⟩ := hids d (List.mem_cons_of_mem c hd)
      have hdc : d ≠ c := fun heq => hnodup.1 (heq ▸ hd)
      rw [size_pushChild, hparent d hdc]
      exact ⟨hlt, hdp, hdroot⟩

/-- A new word over words that are no arguments keeps a store well-formed. -/
theorem WellFormed.adopt {s : Store} (hs : s.WellFormed) (token : String) (quote : Option Quote)
    {ids : List WordId} (hnodup : ids.Nodup)
    (hids : ∀ c ∈ ids, c.index < s.size ∧ s.parent c = none) :
    (s.adopt token quote ids).2.WellFormed := by
  have hparent : ∀ x : WordId, x.index < s.size →
      (s.leaf token quote).2.parent x = s.parent x := by
    intro x hx
    rw [parent, word_leaf, if_neg, parent]
    rintro rfl
    exact Nat.lt_irrefl _ hx
  refine (hs.leaf token quote).pushChildren ids ?_ ?_ hnodup fun c hc => ?_
  · rw [size_leaf]
    exact Nat.lt_succ_self _
  · rw [parent, word_leaf]
    exact congrArg Word.parent (if_pos rfl)
  · obtain ⟨hlt, hroot⟩ := hids c hc
    refine ⟨?_, ?_, ?_⟩
    · rw [size_leaf]
      exact Nat.lt_succ_of_lt hlt
    · rintro rfl
      exact Nat.lt_irrefl _ hlt
    · rw [hparent c hlt, hroot]

/-- Plots that were sown have different roots. -/
theorem Sown.nodup_roots {s s' : Store} {Ps : List Plot} (h : s.Sown Ps s') :
    (Ps.map Plot.id).Nodup := by
  refine List.pairwise_map.2 ((List.pairwise_flatMap.1 h.nodup).2.imp fun {P Q} hPQ => ?_)
  exact hPQ P.id P.id_mem_ids Q.id Q.id_mem_ids

mutual

/-- Planting a term keeps a store well-formed. -/
theorem WellFormed.plant : ∀ (t : Term) {s : Store}, s.WellFormed → (s.plant t).2.WellFormed
  | .node token quote children, s, hs => by
    obtain ⟨Ps, hids, _, hsown, hroots⟩ := plantAll_spec children s
    rw [Store.plant]
    refine (WellFormed.plantAll children hs).adopt token quote ?_ fun c hc => ?_
    · rw [← hids]
      exact hsown.nodup_roots
    · rw [← hids] at hc
      obtain ⟨P, hP, rfl⟩ := List.mem_map.1 hc
      exact ⟨(hsown.shows P hP).id_lt, hroots P hP⟩

theorem WellFormed.plantAll :
    ∀ (ts : List Term) {s : Store}, s.WellFormed → (s.plantAll ts).2.WellFormed
  | [], s, hs => by
    rw [Store.plantAll]
    exact hs
  | t :: ts, s, hs => by
    rw [Store.plantAll]
    exact WellFormed.plantAll ts (WellFormed.plant t hs)

end

end ResourceQuery.Store

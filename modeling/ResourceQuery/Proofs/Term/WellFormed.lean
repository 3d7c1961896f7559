import ResourceQuery.Proofs.Term.Plot

set_option autoImplicit false

/-!
# Terms in a store: well-formed stores

In a well-formed store the links between words agree in both directions, and
going up from any word comes to an end.  Such a store is a forest: below each of
its ids there is a plot with distinct ids.

The plot below an id is found by induction on how much deeper the store can be;
that it has distinct ids is because going up from a word leads along one way
only.
-/

namespace ResourceQuery.Store

/-- The number of words above a word. -/
inductive Depth (s : Store) : WordId → Nat → Prop where
  | root {id : WordId} (h : s.parent id = none) : Depth s id 0
  | under {id p : WordId} {n : Nat} (h : s.parent id = some p) (hp : Depth s p n) :
      Depth s id (n + 1)

/-- Every id that is stored belongs to the store; a word is among the arguments
of another exactly when that one is above it, and then once; and going up from a
word comes to an end. -/
structure WellFormed (s : Store) : Prop where
  child_lt : ∀ {p c : WordId}, c ∈ s.children p → c.index < s.size
  parent_lt : ∀ {p c : WordId}, s.parent c = some p → p.index < s.size
  linked : ∀ {p c : WordId}, c ∈ s.children p ↔ s.parent c = some p
  nodup : ∀ p : WordId, (s.children p).Nodup
  rooted : ∀ id : WordId, ∃ n, s.Depth id n

variable {s : Store}

/-! ## Depth -/

/-- A word has one depth. -/
theorem Depth.unique {id : WordId} {n m : Nat} (hn : s.Depth id n) (hm : s.Depth id m) :
    n = m := by
  induction hn generalizing m with
  | root hroot =>
    cases hm with
    | root _ => rfl
    | under hunder _ => rw [hroot] at hunder; cases hunder
  | under hunder _ ih =>
    cases hm with
    | root hroot => rw [hroot] at hunder; cases hunder
    | under hunder' hm =>
      rw [hunder] at hunder'
      cases hunder'
      rw [ih hm]

/-- The words from an id upwards are distinct: no two have the same depth. -/
theorem Depth.exists_chain (hs : s.WellFormed) {id : WordId} {n : Nat} (h : s.Depth id n)
    (hid : id.index < s.size) :
    ∃ chain : List WordId, chain.length = n + 1 ∧ chain.Nodup ∧
      ∀ x ∈ chain, x.index < s.size ∧ ∃ m, m ≤ n ∧ s.Depth x m := by
  induction h with
  | @root id hroot =>
    refine ⟨[id], rfl, by simp, ?_⟩
    intro x hx
    rw [List.mem_singleton.1 hx]
    exact ⟨hid, 0, Nat.le_refl 0, .root hroot⟩
  | @under id p n hunder hp ih =>
    obtain ⟨chain, hlength, hnodup, hchain⟩ := ih (hs.parent_lt hunder)
    have hdepth : s.Depth id (n + 1) := .under hunder hp
    refine ⟨id :: chain, by rw [List.length_cons, hlength], List.nodup_cons.2 ⟨?_, hnodup⟩, ?_⟩
    · intro hmem
      obtain ⟨_, m, hm, hdepth'⟩ := hchain id hmem
      have := hdepth.unique hdepth'
      omega
    · intro x hx
      rcases List.mem_cons.1 hx with rfl | hx
      · exact ⟨hid, n + 1, Nat.le_refl _, hdepth⟩
      · obtain ⟨hlt, m, hm, hdepth'⟩ := hchain x hx
        exact ⟨hlt, m, by omega, hdepth'⟩

theorem Depth.lt_size (hs : s.WellFormed) {id : WordId} {n : Nat} (h : s.Depth id n)
    (hid : id.index < s.size) : n < s.size := by
  obtain ⟨chain, hlength, hnodup, hchain⟩ := h.exists_chain hs hid
  have hle := length_le_size hnodup fun x hx => (hchain x hx).1
  omega

/-! ## What stands above a word -/

/-- The first word is the second, or stands above it. -/
inductive Above (s : Store) (above : WordId) : WordId → Prop where
  | refl : Above s above above
  | up {x p : WordId} (h : s.parent x = some p) (hp : Above s above p) : Above s above x

/-- Nothing else stands above a word that is no argument. -/
theorem Above.eq_of_root {above x : WordId} (h : s.Above above x) (hroot : s.parent x = none) :
    above = x := by
  cases h with
  | refl => rfl
  | up hparent _ => rw [hroot] at hparent; cases hparent

theorem mem_ancestorsTo_iff {above x : WordId} {n : Nat} (h : s.Depth x n) :
    ∀ {depth : Nat}, n ≤ depth → (above ∈ s.ancestorsTo depth x ↔ s.Above above x) := by
  induction h with
  | @root x hroot =>
    intro depth _
    have hancestors : s.ancestorsTo depth x = [x] := by
      cases depth with
      | zero => rfl
      | succ depth => rw [ancestorsTo, hroot]
    rw [hancestors, List.mem_singleton]
    constructor
    · rintro rfl
      exact .refl
    · intro habove
      exact habove.eq_of_root hroot
  | @under x p n hparent _ ih =>
    intro depth hdepth
    cases depth with
    | zero => omega
    | succ depth =>
      rw [ancestorsTo, hparent]
      simp only [List.mem_cons]
      rw [ih (by omega)]
      constructor
      · rintro (rfl | habove)
        · exact .refl
        · exact .up hparent habove
      · intro habove
        cases habove with
        | refl => exact .inl rfl
        | up hparent' hp =>
          rw [hparent] at hparent'
          cases hparent'
          exact .inr hp

theorem word_of_size_le {x : WordId} (h : s.size ≤ x.index) : s.word x = ⟨"", none, [], none⟩ := by
  rw [word, Array.getElem?_eq_none (show s.words.size ≤ x.index from h)]
  rfl

/-- The words that are found by going up from a word are those that stand above it. -/
theorem isAncestor_iff (hs : s.WellFormed) {above x : WordId} :
    s.isAncestor above x = true ↔ s.Above above x := by
  have hdepth : ∃ n, n ≤ s.size ∧ s.Depth x n := by
    by_cases hx : x.index < s.size
    · obtain ⟨n, hn⟩ := hs.rooted x
      exact ⟨n, Nat.le_of_lt (hn.lt_size hs hx), hn⟩
    · refine ⟨0, Nat.zero_le _, .root ?_⟩
      rw [parent, word_of_size_le (Nat.le_of_not_lt hx)]
  obtain ⟨n, hn, hdepth⟩ := hdepth
  rw [isAncestor, List.contains_iff_mem]
  exact mem_ancestorsTo_iff hdepth hn

/-! ## The plot below an id -/

/-- Where each of some ids has a plot below it, there are plots for all of them. -/
theorem exists_plots {ids : List WordId} (h : ∀ c ∈ ids, ∃ Q : Plot, Q.id = c ∧ s.Shows Q) :
    ∃ Qs : List Plot, ids = Qs.map Plot.id ∧ ∀ Q ∈ Qs, s.Shows Q := by
  induction ids with
  | nil => exact ⟨[], rfl, fun _ hQ => absurd hQ List.not_mem_nil⟩
  | cons c ids ih =>
    obtain ⟨Q, rfl, hQ⟩ := h c List.mem_cons_self
    obtain ⟨Qs, rfl, hQs⟩ := ih fun c' hc' => h c' (List.mem_cons_of_mem _ hc')
    refine ⟨Q :: Qs, rfl, ?_⟩
    intro R hR
    rcases List.mem_cons.1 hR with rfl | hR
    · exact hQ
    · exact hQs R hR

/-- The induction is on how much deeper than the id the store can be. -/
theorem exists_shown (hs : s.WellFormed) (room : Nat) :
    ∀ {id : WordId} {n : Nat}, id.index < s.size → s.Depth id n → s.size ≤ n + room →
      ∃ P : Plot, P.id = id ∧ s.Shows P := by
  induction room with
  | zero =>
    intro id n hid hdepth hroom
    have := hdepth.lt_size hs hid
    omega
  | succ room ih =>
    intro id n hid hdepth hroom
    have hchildren : ∀ c ∈ s.children id, ∃ Q : Plot, Q.id = c ∧ s.Shows Q := by
      intro c hc
      exact ih (hs.child_lt hc) (.under (hs.linked.1 hc) hdepth) (by omega)
    obtain ⟨Qs, hids, hQs⟩ := exists_plots hchildren
    exact ⟨.node id (s.token id) (s.quote id) Qs, rfl, .node hid rfl rfl hids hQs⟩

/-- The word so many steps above an id. -/
def climb (s : Store) : Nat → WordId → Option WordId
  | 0, id => some id
  | steps + 1, id => (s.climb steps id).bind s.parent

/-- From every word of a plot, going up by the difference in depth leads to the root. -/
theorem Shows.exists_climb (hs : s.WellFormed) {P : Plot} (h : s.Shows P) :
    ∀ {n : Nat}, s.Depth P.id n → ∀ x ∈ P.ids,
      ∃ steps, s.Depth x (n + steps) ∧ s.climb steps x = some P.id := by
  induction h with
  | @node id token quote children _ _ _ hchildren _ ih =>
    intro n hdepth x hx
    rw [Plot.ids_node] at hx
    rcases List.mem_cons.1 hx with rfl | hx
    · exact ⟨0, hdepth, rfl⟩
    · obtain ⟨Q, hQ, hx⟩ := List.mem_flatMap.1 hx
      have hparent : s.parent Q.id = some id := by
        rw [← hs.linked, hchildren]
        exact List.mem_map_of_mem hQ
      obtain ⟨steps, hx, hclimb⟩ := ih Q hQ (.under hparent hdepth) x hx
      refine ⟨steps + 1, by rwa [Nat.add_right_comm, Nat.add_assoc] at hx, ?_⟩
      rw [climb, hclimb]
      exact hparent

/-- The plots that a well-formed store shows have distinct ids. -/
theorem Shows.nodup (hs : s.WellFormed) {P : Plot} (h : s.Shows P) : P.ids.Nodup := by
  induction h with
  | @node id token quote children _ _ _ hchildren hall ih =>
    obtain ⟨n, hdepth⟩ := hs.rooted id
    have hbelow : ∀ Q ∈ children, s.Depth Q.id (n + 1) := by
      intro Q hQ
      refine .under (hs.linked.1 ?_) hdepth
      rw [hchildren]
      exact List.mem_map_of_mem hQ
    refine Plot.nodup_node.2 ⟨?_, List.pairwise_flatMap.2 ⟨ih, ?_⟩⟩
    · intro hmem
      obtain ⟨Q, hQ, hmem⟩ := List.mem_flatMap.1 hmem
      obtain ⟨steps, hdepth', _⟩ := (hall Q hQ).exists_climb hs (hbelow Q hQ) id hmem
      have := hdepth.unique hdepth'
      omega
    · have hdistinct := hs.nodup id
      rw [hchildren, List.Nodup, List.pairwise_map] at hdistinct
      refine List.Pairwise.imp_of_mem ?_ hdistinct
      intro Q R hQ hR hne x hx y hy
      rintro rfl
      obtain ⟨m, hdepthQ, hclimbQ⟩ := (hall Q hQ).exists_climb hs (hbelow Q hQ) x hx
      obtain ⟨m', hdepthR, hclimbR⟩ := (hall R hR).exists_climb hs (hbelow R hR) x hy
      obtain rfl : m = m' := by
        have := hdepthQ.unique hdepthR
        omega
      rw [hclimbQ] at hclimbR
      exact hne (Option.some.inj hclimbR)

/-- Below each id of a well-formed store there is a plot with distinct ids. -/
theorem WellFormed.exists_plot (hs : s.WellFormed) {id : WordId} (hid : id.index < s.size) :
    ∃ P : Plot, P.id = id ∧ s.Shows P ∧ P.ids.Nodup := by
  obtain ⟨n, hdepth⟩ := hs.rooted id
  obtain ⟨P, hP, hshows⟩ := exists_shown hs s.size hid hdepth (by omega)
  exact ⟨P, hP, hshows, hshows.nodup hs⟩

end ResourceQuery.Store

import ResourceQuery.Proofs.Term.Operations

set_option autoImplicit false

/-!
# Terms in a store: reading

What is read at a word is the word with what is read at its arguments; and what
is read stays the same when words are added, when words are put under a new one,
and when the arguments of a word are detached from it.
-/

namespace ResourceQuery.Store

variable {s s' : Store} {id : WordId}

theorem token_read (s : Store) (id : WordId) : (s.read id).token = s.token id := by
  unfold read
  cases s.size with
  | zero => rfl
  | succ depth => rfl

theorem quote_read (s : Store) (id : WordId) : (s.read id).quote = s.quote id := by
  unfold read
  cases s.size with
  | zero => rfl
  | succ depth => rfl

theorem isQuoted_read (s : Store) (id : WordId) : (s.read id).isQuoted = s.isQuoted id := by
  rw [Term.isQuoted, quote_read]
  rfl

theorem hasToken_read (s : Store) (id : WordId) (word : String) :
    (s.read id).hasToken word = s.hasToken id word := by
  rw [Term.hasToken, isQuoted_read, token_read]
  rfl

theorem WellFormed.children_read (hs : s.WellFormed) (hid : id.index < s.size) :
    (s.read id).children = (s.children id).map s.read := by
  obtain ⟨P, rfl, hP, hnodup⟩ := hs.exists_plot hid
  rw [hP.read_eq hnodup, hP.children_eq, Plot.children_term, List.map_map]
  exact List.map_congr_left fun Q hQ =>
    ((hP.child hQ).read_eq (Plot.nodup_of_mem hnodup hQ)).symm

/-- What is read at a word, from what is read at its arguments. -/
theorem WellFormed.read_eq (hs : s.WellFormed) (hid : id.index < s.size) :
    s.read id = .node (s.token id) (s.quote id) ((s.children id).map s.read) := by
  rw [← hs.children_read hid, ← token_read, ← quote_read]
  cases s.read id with
  | node token quote children => rfl

theorem WellFormed.isLeaf_read (hs : s.WellFormed) (hid : id.index < s.size) :
    (s.read id).isLeaf = s.isLeaf id := by
  rw [Term.isLeaf, hs.children_read hid, List.isEmpty_map]
  rfl

/-- A store that agrees on all words of another reads the same there. -/
theorem WellFormed.read_of_agrees (hs : s.WellFormed) (hid : id.index < s.size)
    (hsize : s.size ≤ s'.size) (h : ∀ x : WordId, x.index < s.size → s.Agrees s' x) :
    s'.read id = s.read id := by
  obtain ⟨P, rfl, hP, hnodup⟩ := hs.exists_plot hid
  have hP' : s'.Shows P := hP.of_agrees hsize fun x hx => h x (hP.ids_lt x hx)
  rw [hP.read_eq hnodup, hP'.read_eq hnodup]

/-- What is read at a word does not change when the store grows. -/
theorem Extends.read_eq (h : s.Extends s') (hs : s.WellFormed) (hid : id.index < s.size) :
    s'.read id = s.read id :=
  hs.read_of_agrees hid h.size_le fun x hx => .of_word (h.word_eq x hx)

/-! ## Adding words -/

/-- A term that was planted is read as it was. -/
theorem read_plant (s : Store) (t : Term) : (s.plant t).2.read (s.plant t).1 = t := by
  obtain ⟨P, hid, hterm, hsown, _⟩ := plant_spec t s
  have hnodup := hsown.nodup
  rw [List.flatMap_singleton] at hnodup
  rw [← hid, (hsown.shows P List.mem_cons_self).read_eq hnodup, hterm]

/-- A new word over others reads as a call of what is read at them; old words read as before. -/
theorem read_call (hs : s.WellFormed) (token : String) (ids : List WordId)
    (hids : ∀ x ∈ ids, x.index < s.size) (hs' : (s.call token ids).2.WellFormed) :
    (s.call token ids).2.read (s.call token ids).1 = .call token (ids.map s.read) ∧
      ∀ x : WordId, x.index < s.size → (s.call token ids).2.read x = s.read x := by
  obtain ⟨hid, hsize, hword, hagrees, _⟩ := adopt_spec s token none hids
  have hold : ∀ x : WordId, x.index < s.size → (s.call token ids).2.read x = s.read x :=
    fun x hx => hs.read_of_agrees hx (by rw [call, hsize]; exact Nat.le_succ _) hagrees
  refine ⟨?_, hold⟩
  have hnew : (s.call token ids).2.word (s.call token ids).1 = ⟨token, none, ids, none⟩ := by
    rw [call, hid]
    exact hword
  have hlt : (s.call token ids).1.index < (s.call token ids).2.size := by
    rw [call, hid, hsize]
    exact Nat.lt_succ_self _
  rw [hs'.read_eq hlt, Store.token, Store.quote, children, hnew]
  exact congrArg (Term.node token none) (List.map_congr_left fun x hx => hold x (hids x hx))

/-! ## Detaching arguments -/

theorem Shows.detachAll {ids : List WordId} :
    ∀ {s : Store} {R : Plot}, s.Shows R → (∀ x ∈ ids, x ∉ R.inner) → (s.detachAll ids).Shows R := by
  induction ids with
  | nil => exact fun hR _ => hR
  | cons id ids ih =>
    intro s R hR hids
    exact ih (s := s.detach id) (hR.detach (hids id List.mem_cons_self)) fun x hx =>
      hids x (List.mem_cons_of_mem id hx)

/-- What stands below a word has a word above it there. -/
theorem Shows.parent_of_mem_inner (hs : s.WellFormed) {R : Plot} (hR : s.Shows R) {x : WordId}
    (hx : x ∈ R.inner) : ∃ y ∈ R.ids, s.parent x = some y := by
  have hlinked : ∀ {S T : Plot}, S.Under R → T ∈ S.children → s.parent T.id = some S.id := by
    intro S T hS hT
    refine hs.linked.1 ?_
    rw [(hR.under hS).children_eq]
    exact List.mem_map_of_mem hT
  obtain ⟨Q, hQ, hx⟩ := List.mem_flatMap.1 hx
  obtain ⟨T, hT, rfl⟩ := Plot.mem_ids_iff.1 hx
  rcases hT.eq_or_child with rfl | ⟨S, hS, hT⟩
  · exact ⟨R.id, R.id_mem_ids, hlinked (.refl R) hQ⟩
  · have hunder : S.Under R := .child hQ hS
    exact ⟨S.id, Plot.mem_ids_iff.2 ⟨S, hunder, rfl⟩, hlinked hunder hT⟩

/-- Detaching arguments of a word leaves what is read at its arguments as it is. -/
theorem read_detachAll (hs : s.WellFormed) (hid : id.index < s.size) {ids : List WordId}
    (hids : ∀ x ∈ ids, x ∈ s.children id) :
    ∀ x ∈ s.children id, (s.detachAll ids).read x = s.read x := by
  obtain ⟨P, rfl, hP, hnodup⟩ := hs.exists_plot hid
  intro x hx
  rw [hP.children_eq] at hx
  obtain ⟨R, hR, rfl⟩ := List.mem_map.1 hx
  have hRnodup := Plot.nodup_of_mem hnodup hR
  -- an argument below another would have the word itself below it
  have hapart : ∀ y ∈ ids, y ∉ R.inner := by
    intro y hy hmem
    obtain ⟨z, hz, hparent⟩ := (hP.child hR).parent_of_mem_inner hs hmem
    rw [hs.linked.1 (hids y hy)] at hparent
    rw [Plot.ids_eq, List.nodup_cons] at hnodup
    exact hnodup.1 (Plot.mem_inner hR (Option.some.inj hparent ▸ hz))
  rw [((hP.child hR).detachAll hapart).read_eq hRnodup, (hP.child hR).read_eq hRnodup]

/-- New words read as the terms they were added for, also once older words are detached. -/
theorem read_plantAll (s : Store) (ts : List Term) {ids : List WordId}
    (hids : ∀ x ∈ ids, x.index < s.size) :
    (s.plantAll ts).1.map ((s.plantAll ts).2.detachAll ids).read = ts := by
  obtain ⟨Ps, hplots, hterms, hsown, _⟩ := plantAll_spec ts s
  rw [← hplots, List.map_map]
  refine Eq.trans (List.map_congr_left fun P hP => ?_) hterms
  have hnodup := (List.pairwise_flatMap.1 hsown.nodup).1 P hP
  have hold : ∀ x ∈ ids, x ∉ P.inner := fun x hx hinner =>
    Nat.not_le_of_lt (hids x hx)
      (hsown.fresh x (List.mem_flatMap.2 ⟨P, hP, P.ids_eq ▸ List.mem_cons_of_mem _ hinner⟩))
  exact ((hsown.shows P hP).detachAll hold).read_eq hnodup

end ResourceQuery.Store

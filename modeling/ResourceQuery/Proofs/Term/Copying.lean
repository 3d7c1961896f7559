import ResourceQuery.Proofs.Term.Reading

set_option autoImplicit false

/-!
# Terms in a store: copies

A copy is made word by word, the arguments before the word over them, and the
store that the words are looked up in may be the one that grows meanwhile. Terms
of a well-formed store come to an end, and so does copying them.  The copy has
the shape of the term, stands on new words alone with nothing above it, and
leaves every word that was there as it is.

Copying word by word is compared with reading the whole term and planting it
(`copyTo_eq_graft`), about which everything is known already.  The store that
the words are looked up in grows only behind the words that are still to be
copied.
-/

namespace ResourceQuery

namespace Plot

/-- A plot has as many ids as its term has words. -/
theorem length_ids (P : Plot) : P.ids.length = P.term.count := by
  induction P using Plot.induction with
  | node id token quote children ih =>
    have hbelow : ∀ {Qs : List Plot}, (∀ Q ∈ Qs, Q.ids.length = Q.term.count) →
        (Qs.flatMap ids).length = Term.countAll (Qs.map term) := by
      intro Qs hQs
      induction Qs with
      | nil => rw [List.flatMap_nil, List.map_nil, Term.countAll, List.length_nil]
      | cons Q Qs ihQs =>
        rw [List.flatMap_cons, List.length_append, List.map_cons, Term.countAll,
          hQs Q List.mem_cons_self, ihQs fun R hR => hQs R (List.mem_cons_of_mem Q hR)]
    rw [ids_node, term_node, Term.count, List.length_cons, hbelow ih]

theorem term_eq_of_mem_zip {Ps Qs : List Plot} (h : Ps.map term = Qs.map term) {p : Plot × Plot}
    (hp : p ∈ Ps.zip Qs) : p.1.term = p.2.term := by
  induction Ps generalizing Qs with
  | nil => cases hp
  | cons P Ps ih =>
    cases Qs with
    | nil => cases hp
    | cons Q Qs =>
      obtain ⟨hfirst, hrest⟩ := List.cons.inj h
      rcases List.mem_cons.1 hp with rfl | hp
      · exact hfirst
      · exact ih hrest hp

end Plot

namespace Store

variable {s source : Store}

/-! ## The words of a term -/

/-- What is above a word that stands above another stands above that one, too. -/
theorem Above.under {a p x : WordId} (h : s.Above a x) (hp : s.parent a = some p) :
    s.Above p x := by
  induction h with
  | refl => exact .up hp .refl
  | up hx _ ih => exact .up hx ih

/-- Of two words above a third, one is above the other. -/
theorem Above.total {a b x : WordId} (ha : s.Above a x) (hb : s.Above b x) :
    s.Above a b ∨ s.Above b a := by
  induction ha with
  | refl => exact .inr hb
  | up hx hp ih =>
    cases hb with
    | refl => exact .inl (.up hx hp)
    | up hx' hp' =>
      rw [hx] at hx'
      cases hx'
      exact ih hp'

/-- The words of a plot are those that its root is above. -/
theorem Shows.mem_ids_iff_above (hs : s.WellFormed) {P : Plot} (h : s.Shows P) {x : WordId} :
    x ∈ P.ids ↔ s.Above P.id x := by
  constructor
  · induction h with
    | @node id token quote children _ _ _ hchildren _ ih =>
      intro hx
      rw [Plot.ids_node] at hx
      rcases List.mem_cons.1 hx with rfl | hx
      · exact .refl
      · obtain ⟨Q, hQ, hx⟩ := List.mem_flatMap.1 hx
        refine (ih Q hQ hx).under (hs.linked.1 ?_)
        rw [Plot.id, hchildren]
        exact List.mem_map_of_mem hQ
  · intro hx
    induction hx with
    | refl => exact P.id_mem_ids
    | up hx _ ih => exact P.mem_ids_of_mem_inner (h.mem_inner ih (hs.linked.2 hx))

/-- Plots of one term have one shape. -/
theorem Shows.sameShapeTo_of_term_eq {P : Plot} (h : s.Shows P) : ∀ {Q : Plot} {depth : Nat},
    source.Shows Q → P.term = Q.term → P.ids.length ≤ depth →
      s.sameShapeTo source depth P.id Q.id = true := by
  induction h with
  | @node id token quote children _ htoken hquote hchildren _ ih =>
    intro Q depth hQ hterm hdepth
    have hless : ∀ R ∈ children, R.ids.length < (Plot.node id token quote children).ids.length :=
      fun R hR => Plot.length_ids_lt hR
    cases depth with
    | zero =>
      rw [Plot.ids_node] at hdepth
      cases hdepth
    | succ depth =>
      cases hQ with
      | @node id' _ _ children' _ htoken' hquote' hchildren' hall' =>
        rw [Plot.term_node, Plot.term_node, Term.node.injEq] at hterm
        obtain ⟨rfl, rfl, hterms⟩ := hterm
        have hlength : children.length = children'.length := by
          have hlengths := congrArg List.length hterms
          rwa [List.length_map, List.length_map] at hlengths
        have hpairs : ∀ p ∈ children.zip children',
            s.sameShapeTo source depth p.1.id p.2.id = true := by
          intro p hp
          obtain ⟨hleft, hright⟩ := List.of_mem_zip hp
          refine ih p.1 hleft (hall' p.2 hright) (Plot.term_eq_of_mem_zip hterms hp) ?_
          have := hless p.1 hleft
          omega
        simp only [sameShapeTo, Plot.id, htoken, htoken', hquote, hquote', hchildren, hchildren',
          List.length_map, hlength, beq_self_eq_true, Bool.true_and, List.zip_map, List.all_map]
        exact List.all_eq_true.2 hpairs

/-! ## How much a store grows -/

/-- A word over others is one word more. -/
theorem size_adopt (s : Store) (token : String) (quote : Option Quote) (ids : List WordId) :
    (s.adopt token quote ids).2.size = s.size + 1 := by
  have hpush : ∀ (p : WordId) (s : Store),
      (ids.foldl (fun s c => s.pushChild p c) s).size = s.size := by
    intro p
    induction ids with
    | nil => exact fun _ => rfl
    | cons c ids ih =>
      intro s
      rw [List.foldl_cons, ih, size_pushChild]
  rw [adopt]
  exact (hpush _ _).trans (size_leaf s token quote)

mutual

/-- Planting a term adds a word for each of its words. -/
theorem size_plant : ∀ (t : Term) (s : Store), (s.plant t).2.size = s.size + t.count
  | .node token quote children, s => by
    rw [plant, size_adopt, size_plantAll children s, Term.count, Nat.add_assoc]

theorem size_plantAll : ∀ (ts : List Term) (s : Store),
    (s.plantAll ts).2.size = s.size + Term.countAll ts
  | [], s => by
    rw [plantAll, Term.countAll, Nat.add_zero]
  | t :: ts, s => by
    rw [plantAll, Term.countAll, size_plantAll ts, size_plant t, Nat.add_assoc]

end

/-! ## Copying word by word -/

/-- The copies of several terms, one after the other. -/
def copyAll (copy : Store → WordId → Option (WordId × Store)) :
    Store → List WordId → Option (List WordId × Store)
  | s, [] => some ([], s)
  | s, id :: ids =>
    (copy s id).bind fun first =>
      (copyAll copy first.2 ids).map fun rest => (first.1 :: rest.1, rest.2)

/-- Copies the term at an id word by word: first the arguments, each as a whole,
then the word, and the arguments are put under it.  Each word is looked up when
its turn comes, in the store that `look` gives for the one that has grown so
far.  There is no copy if the term is deeper than `depth`. -/
def copyTo (look : Store → Store) : Nat → Store → WordId → Option (WordId × Store)
  | 0, _, _ => none
  | depth + 1, s, id =>
    (copyAll (copyTo look depth) s ((look s).children id)).map fun copies =>
      copies.2.adopt ((look copies.2).token id) ((look copies.2).quote id) copies.1

/-- Where each copy is made as if its term were planted, so are copies one after the other. -/
theorem copyAll_eq {copy : Store → WordId → Option (WordId × Store)} {Ps : List Plot} :
    ∀ {s : Store},
      (∀ P ∈ Ps, ∀ grown, s.Extends grown → copy grown P.id = some (grown.plant P.term)) →
      copyAll copy s (Ps.map Plot.id) = some (s.plantAll (Ps.map Plot.term)) := by
  induction Ps with
  | nil =>
    intro s _
    rw [List.map_nil, List.map_nil, copyAll, plantAll]
  | cons P Ps ih =>
    intro s h
    have hfirst := h P List.mem_cons_self s (.refl s)
    have hrest : copyAll copy (s.plant P.term).2 (Ps.map Plot.id) =
        some ((s.plant P.term).2.plantAll (Ps.map Plot.term)) :=
      ih fun Q hQ grown hgrown =>
        h Q (List.mem_cons_of_mem P hQ) grown ((s.extends_plant P.term).trans hgrown)
    rw [List.map_cons, List.map_cons, copyAll, hfirst, Option.bind_some, hrest, Option.map_some,
      plantAll]

/-- A term that stays where it is looked up is copied as if it were planted. -/
theorem copyTo_eq {look : Store → Store} (P : Plot) : ∀ {s : Store} {depth : Nat},
    (∀ grown, s.Extends grown → (look grown).Shows P) → P.ids.length ≤ depth →
      copyTo look depth s P.id = some (s.plant P.term) := by
  induction P using Plot.induction with
  | node id token quote children ih =>
    intro s depth hlook hdepth
    cases depth with
    | zero =>
      rw [Plot.ids_node] at hdepth
      cases hdepth
    | succ depth =>
      have hcopies : copyAll (copyTo look depth) s (children.map Plot.id) =
          some (s.plantAll (children.map Plot.term)) := by
        refine copyAll_eq fun Q hQ grown hgrown => ih Q hQ (fun later hlater => ?_) ?_
        · exact (hlook later (hgrown.trans hlater)).child hQ
        · have := Plot.length_ids_lt (P := .node id token quote children) hQ
          omega
      cases hlook _ (s.extends_plantAll (children.map Plot.term)) with
      | node _ htoken hquote _ _ =>
        rw [copyTo, (hlook s (.refl s)).children_eq, Plot.children, hcopies, Option.map_some,
          Plot.id, htoken, hquote, Plot.term_node, plant]

/-! ## What a copy is -/

/-- `copy` is the root of a copy of the term at an id of `source`, made in a
store that was `s` before and is `s'` now. -/
structure Copied (s source : Store) (id copy : WordId) (s' : Store) : Prop where
  /-- The store is in order, so that the words of a term are those that its root is above. -/
  wellFormed : s'.WellFormed
  /-- Nothing is above the copy. -/
  root : s'.parent copy = none
  /-- The copy has the words, quotes and arguments of the term. -/
  shape : s'.sameShape copy source id = true
  /-- Its words are new. -/
  fresh : ∀ x : WordId, s'.Above copy x → s.size ≤ x.index
  /-- It shares no word with a term that was there. -/
  apart : ∀ old x : WordId, old.index < s.size → s'.Above old x → ¬ s'.Above copy x
  /-- There are as many more words as the term has. -/
  grown : ∃ ids : List WordId, ids.Nodup ∧ (∀ x, x ∈ ids ↔ source.Above id x) ∧
    s'.size = s.size + ids.length
  /-- The words that were there are as they were, with the same arguments under the same words. -/
  kept : ∀ x : WordId, x.index < s.size → s'.word x = s.word x

/-- The copy of a term of a well-formed store. -/
theorem copied_graft (hs : s.WellFormed) (hsource : source.WellFormed) {id : WordId}
    (hid : id.index < source.size) :
    s.Copied source id (s.graft source id).1 (s.graft source id).2 := by
  obtain ⟨P, rfl, hP, hnodup⟩ := hsource.exists_plot hid
  rw [graft, hP.read_eq hnodup]
  obtain ⟨Q, hQid, hterm, hsown, hroot⟩ := plant_spec P.term s
  have hs' : (s.plant P.term).2.WellFormed := .plant P.term hs
  have hQ : (s.plant P.term).2.Shows Q := hsown.shows Q List.mem_cons_self
  have hsize := size_plant P.term s
  rw [← Plot.length_ids] at hsize
  rw [← hQid]
  have hfresh : ∀ x, (s.plant P.term).2.Above Q.id x → s.size ≤ x.index := by
    intro x hx
    refine hsown.fresh x ?_
    rw [List.flatMap_singleton]
    exact (hQ.mem_ids_iff_above hs').2 hx
  refine ⟨hs', hroot, ?_, hfresh, ?_,
    ⟨P.ids, hnodup, fun _ => hP.mem_ids_iff_above hsource, hsize⟩, hsown.extension.word_eq⟩
  · refine hQ.sameShapeTo_of_term_eq hP hterm ?_
    rw [Plot.length_ids, hterm, ← Plot.length_ids]
    omega
  · -- an old word that shared one with the copy would be above it or below it
    intro old x hold hx hcopy
    have hnot : ¬ (s.plant P.term).2.Above Q.id old := by
      intro habove
      exact Nat.not_le_of_lt hold (hfresh old habove)
    rcases hx.total hcopy with habove | habove
    · exact hnot (habove.eq_of_root hroot ▸ .refl)
    · exact hnot habove

/-- Copying a term word by word gives what reading and planting it gives, with
any depth that its store can have. -/
theorem copyTo_eq_graft (hsource : source.WellFormed) {look : Store → Store}
    (hlook : ∀ grown, s.Extends grown → source.Extends (look grown)) {id : WordId}
    (hid : id.index < source.size) {depth : Nat} (hdepth : source.size ≤ depth) :
    copyTo look depth s id = some (s.graft source id) := by
  obtain ⟨P, rfl, hP, hnodup⟩ := hsource.exists_plot hid
  rw [graft, hP.read_eq hnodup]
  exact copyTo_eq P (fun grown hgrown => (hlook grown hgrown).shows hP)
    (Nat.le_trans (length_le_size hnodup hP.ids_lt) hdepth)

/-- Copies, of a term of the store itself or of another one, are faithful and
new; and copying word by word comes to an end with them. -/
theorem copies_faithful_and_fresh (hs : s.WellFormed) (hsource : source.WellFormed) :
    (∀ id : WordId, id.index < s.size →
      s.Copied s id (s.duplicate id).1 (s.duplicate id).2 ∧
      ∀ depth, s.size ≤ depth →
        copyTo (fun grown => grown) depth s id = some (s.duplicate id)) ∧
    ∀ id : WordId, id.index < source.size →
      s.Copied source id (s.graft source id).1 (s.graft source id).2 ∧
      ∀ depth, source.size ≤ depth →
        copyTo (fun _ => source) depth s id = some (s.graft source id) := by
  refine ⟨fun id hid => ⟨copied_graft hs hs hid, fun depth hdepth => ?_⟩,
    fun id hid => ⟨copied_graft hs hsource hid, fun depth hdepth => ?_⟩⟩
  · exact copyTo_eq_graft hs (fun _ hgrown => hgrown) hid hdepth
  · exact copyTo_eq_graft hsource (fun _ _ => .refl source) hid hdepth

/-- The store of a conjunction; the comparison in it has the id 2. -/
def conjunction : Store :=
  (empty.plant (.call "and" [.call "eq" [.word "a", .leaf "b" (some .double)], .word "c"])).2

/-- The store of a negation; the list in it has the id 2. -/
def negation : Store :=
  (empty.plant (.call "not" [.call "in" [.word "x", .leaf "y" (some .single)]])).2

/-- A term under another one is copied within its store, and one of another store beside it. -/
theorem copies_faithful_and_fresh_below :
    conjunction.parent ⟨2⟩ = some ⟨4⟩ ∧ (conjunction.duplicate ⟨2⟩).1 = ⟨7⟩ ∧
      conjunction.Copied conjunction ⟨2⟩ (conjunction.duplicate ⟨2⟩).1
        (conjunction.duplicate ⟨2⟩).2 ∧
      copyTo (fun grown => grown) 5 conjunction ⟨2⟩ = some (conjunction.duplicate ⟨2⟩) ∧
      negation.parent ⟨2⟩ = some ⟨3⟩ ∧
      conjunction.Copied negation ⟨2⟩ (conjunction.graft negation ⟨2⟩).1
        (conjunction.graft negation ⟨2⟩).2 := by
  have hconjunction : conjunction.WellFormed := .plant _ .empty
  have hnegation : negation.WellFormed := .plant _ .empty
  obtain ⟨hduplicate, hgraft⟩ := copies_faithful_and_fresh hconjunction hnegation
  obtain ⟨hcopied, hends⟩ := hduplicate ⟨2⟩ (by decide)
  exact ⟨by decide, by decide, hcopied, hends 5 (by decide), by decide, (hgraft ⟨2⟩ (by decide)).1⟩

end Store
end ResourceQuery

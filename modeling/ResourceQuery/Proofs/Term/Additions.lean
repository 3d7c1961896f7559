import ResourceQuery.Proofs.Term.Edits

set_option autoImplicit false

/-!
# Terms in a store: additions

Words are added to a store in two ways: a word over arguments that are there,
and a whole term, its arguments before its root.  Here are the edits that each
of them makes, in order.  The edits are allowed when the arguments are *loose*,
which is to say, no arguments of other words; and what is added is loose again.

Looseness comes with a number `n` of words that are not to be touched.  A query
keeps its words apart from those of a fragment that is being read in this way:
nothing that is done with a new term reaches the words that were there before.
-/

namespace ResourceQuery

namespace Store

/-! ## New words over old ones -/

/-- The edits that put words behind the first arguments of a word. -/
def pushEdits (p : WordId) : Nat → List WordId → List Edit
  | _, [] => []
  | index, c :: cs => .insert p index c :: pushEdits p (index + 1) cs

/-- The edits that add a word over arguments. -/
def adoptEdits (s : Store) (token : String) (quote : Option Quote) (ids : List WordId) :
    List Edit :=
  .leaf token quote :: pushEdits ⟨s.size⟩ 0 ids

/-- A word that is no argument, and not among the first `n`. -/
structure Loose (n : Nat) (s : Store) (id : WordId) : Prop where
  le : n ≤ id.index
  lt : id.index < s.size
  root : s.parent id = none

variable {n : Nat} {s : Store}

theorem allowed_push (hs : s.WellFormed) {p c : WordId} (hp : Loose n s p) (hc : Loose n s c)
    (hne : c ≠ p) : (Edit.insert p (s.children p).length c).Allowed s := by
  refine ⟨hp.lt, hc.lt, hc.root, ?_, Nat.le_refl _⟩
  rw [Bool.eq_false_iff]
  intro habove
  exact hne (((isAncestor_iff hs).1 habove).eq_of_root hp.root)

theorem edited_push (p : WordId) (ids : List WordId) :
    ∀ {s : Store}, s.WellFormed → Loose n s p → ids.Nodup →
      (∀ c ∈ ids, Loose n s c ∧ c ≠ p) →
      Edited n s (pushEdits p (s.children p).length ids)
        (ids.foldl (fun s c => s.pushChild p c) s) := by
  induction ids with
  | nil =>
    intro s _ _ _ _
    exact .nil s
  | cons c ids ih =>
    intro s hs hp hnodup hids
    rw [List.nodup_cons] at hnodup
    obtain ⟨hc, hne⟩ := hids c List.mem_cons_self
    have hallowed := allowed_push hs hp hc hne
    have hparent : ∀ x, x ≠ c → (s.pushChild p c).parent x = s.parent x := by
      intro x hx
      rw [pushChild, parent_insertChild hp.lt hc.lt hne, if_neg hx]
    have hloose : ∀ {x}, x ≠ c → Loose n s x → Loose n (s.pushChild p c) x := by
      intro x hx h
      exact ⟨h.le, by rw [size_pushChild]; exact h.lt, by rw [hparent x hx, h.root]⟩
    have hlength : ((s.pushChild p c).children p).length = (s.children p).length + 1 := by
      rw [children, word_pushChild hp.lt hc.lt hne, if_neg (Ne.symm hne), if_pos rfl,
        List.length_append, List.length_singleton]
    have hrest := ih (s := s.pushChild p c) (hallowed.wellFormed hs) (hloose (Ne.symm hne) hp)
      hnodup.2 fun d hd => by
        have hdc : d ≠ c := fun heq => hnodup.1 (heq ▸ hd)
        obtain ⟨hd, hdp⟩ := hids d (List.mem_cons_of_mem c hd)
        exact ⟨hloose hdc hd, hdp⟩
    rw [hlength] at hrest
    exact .cons hallowed ⟨hp.le, hc.le⟩ hrest

/-- A word over arguments that are loose is added by allowed edits. -/
theorem edited_adopt (hs : s.WellFormed) (hn : n ≤ s.size) (token : String) (quote : Option Quote)
    {ids : List WordId} (hnodup : ids.Nodup) (hids : ∀ c ∈ ids, Loose n s c) :
    Edited n s (s.adoptEdits token quote ids) (s.adopt token quote ids).2 := by
  have hword : ∀ x : WordId, x.index < s.size →
      (s.leaf token quote).2.word x = s.word x ∧ x ≠ ⟨s.size⟩ := by
    intro x hx
    have hne : x ≠ ⟨s.size⟩ := by
      rintro rfl
      exact Nat.lt_irrefl _ hx
    exact ⟨by rw [word_leaf, if_neg hne], hne⟩
  have hnew : (s.leaf token quote).2.word ⟨s.size⟩ = ⟨token, quote, [], none⟩ := by
    rw [word_leaf, if_pos rfl]
  have hroot : Loose n (s.leaf token quote).2 ⟨s.size⟩ := by
    refine ⟨hn, by rw [size_leaf]; exact Nat.lt_succ_self _, ?_⟩
    rw [parent, hnew]
  have hpush := edited_push ⟨s.size⟩ ids (hs.leaf token quote) hroot hnodup fun c hc => by
    obtain ⟨hle, hlt, hparent⟩ := hids c hc
    obtain ⟨hkept, hne⟩ := hword c hlt
    refine ⟨⟨hle, by rw [size_leaf]; exact Nat.lt_succ_of_lt hlt, ?_⟩, hne⟩
    rw [parent, hkept]
    exact hparent
  rw [children, hnew] at hpush
  exact .cons trivial trivial hpush

theorem loose_adopt (hn : n ≤ s.size) (token : String) (quote : Option Quote) {ids : List WordId}
    (hids : ∀ c ∈ ids, c.index < s.size) :
    Loose n (s.adopt token quote ids).2 (s.adopt token quote ids).1 := by
  obtain ⟨hid, hsize, _⟩ := adopt_spec s token quote hids
  refine ⟨by rw [hid]; exact hn, ?_, parent_adopt token quote hids⟩
  rw [hid, hsize]
  exact Nat.lt_succ_self _

/-! ## Terms -/

mutual

/-- The edits that add a term. -/
def plantEdits (s : Store) : Term → List Edit
  | .node token quote children =>
    s.plantAllEdits children ++
      (s.plantAll children).2.adoptEdits token quote (s.plantAll children).1

/-- The edits that add terms one after the other. -/
def plantAllEdits (s : Store) : List Term → List Edit
  | [] => []
  | t :: ts => s.plantEdits t ++ (s.plant t).2.plantAllEdits ts

end

theorem loose_plantAll (hn : n ≤ s.size) (ts : List Term) :
    (s.plantAll ts).1.Nodup ∧ ∀ c ∈ (s.plantAll ts).1, Loose n (s.plantAll ts).2 c := by
  obtain ⟨Ps, hids, _, hsown, hroots⟩ := plantAll_spec ts s
  rw [← hids]
  refine ⟨hsown.nodup_roots, fun c hc => ?_⟩
  obtain ⟨P, hP, rfl⟩ := List.mem_map.1 hc
  have hfresh := hsown.fresh P.id (List.mem_flatMap.2 ⟨P, hP, P.id_mem_ids⟩)
  exact ⟨Nat.le_trans hn hfresh, (hsown.shows P hP).id_lt, hroots P hP⟩

theorem loose_plant (hn : n ≤ s.size) (t : Term) : Loose n (s.plant t).2 (s.plant t).1 := by
  obtain ⟨P, hid, _, hsown, hroot⟩ := plant_spec t s
  have hfresh := hsown.fresh P.id (List.mem_flatMap.2 ⟨P, List.mem_cons_self, P.id_mem_ids⟩)
  rw [← hid]
  exact ⟨Nat.le_trans hn hfresh, (hsown.shows P List.mem_cons_self).id_lt, hroot⟩

theorem size_le_plantAll (s : Store) (ts : List Term) : s.size ≤ (s.plantAll ts).2.size :=
  (s.extends_plantAll ts).size_le

theorem size_le_plant (s : Store) (t : Term) : s.size ≤ (s.plant t).2.size :=
  (s.extends_plant t).size_le

mutual

/-- A term is added by allowed edits. -/
theorem edited_plant : ∀ (t : Term) {s : Store}, s.WellFormed → n ≤ s.size →
    Edited n s (s.plantEdits t) (s.plant t).2
  | .node token quote children, s, hs, hn => by
    obtain ⟨hnodup, hloose⟩ := loose_plantAll hn children
    have hadopt := edited_adopt (WellFormed.plantAll children hs)
      (Nat.le_trans hn (s.size_le_plantAll children)) token quote hnodup hloose
    rw [plantEdits, plant]
    exact (edited_plantAll children hs hn).append hadopt

theorem edited_plantAll : ∀ (ts : List Term) {s : Store}, s.WellFormed → n ≤ s.size →
    Edited n s (s.plantAllEdits ts) (s.plantAll ts).2
  | [], s, _, _ => by
    rw [plantAllEdits, plantAll]
    exact .nil s
  | t :: ts, s, hs, hn => by
    rw [plantAllEdits, plantAll]
    exact (edited_plant t hs hn).append
      (edited_plantAll ts (WellFormed.plant t hs) (Nat.le_trans hn (s.size_le_plant t)))

end

end Store
end ResourceQuery

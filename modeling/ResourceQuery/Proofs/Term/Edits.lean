import ResourceQuery.Proofs.Term.Replacing

set_option autoImplicit false

/-!
# Terms in a store: edits

A store is changed by edits of five kinds: a leaf is added, a word gets another
text, a word is put among the arguments of another, a word is detached, and a
word gives way to another. An edit is *allowed* when its arguments are in order:
what is put somewhere is no argument yet and does not stand above its new place,
the place exists, and what gives way to a word does not stand below it.  Allowed
edits keep a store well-formed; and edits that name only words behind the first
`n` leave these as they are.

The links of a store go both ways, so an edit changes several words at once.
Each of the five kinds is described by what its links are afterwards
(`links_replace`), and the cases of `Allowed.wellFormed` are these descriptions.
-/

namespace ResourceQuery

namespace Store

/-! ## Links after detaching -/

theorem lt_size_of_parent {s : Store} {x p : WordId} (h : s.parent x = some p) :
    x.index < s.size := by
  refine Nat.lt_of_not_le fun hle => ?_
  rw [parent, word_of_size_le hle] at h
  cases h

theorem parent_detach (s : Store) (id x : WordId) :
    (s.detach id).parent x = if x = id then none else s.parent x := by
  unfold detach
  split
  · next hroot =>
    split
    · next hx => rw [hx, hroot]
    · rfl
  · next p hparent =>
    have hlt := lt_size_of_parent hparent
    rw [parent, word_setChildren _ p (List.filter fun c => decide (c ≠ id)), word_setParent]
    simp only [hlt, and_true]

variable {s : Store}

/-- A word that is detached is among no arguments, and the others keep their order. -/
theorem children_detach (hs : s.WellFormed) (id x : WordId) :
    (s.detach id).children x = (s.children x).filter (· ≠ id) := by
  -- only the word above the detached one has it among its arguments
  have hothers : s.parent id ≠ some x → (s.children x).filter (· ≠ id) = s.children x := by
    intro hne
    refine List.filter_eq_self.2 fun c hc => decide_eq_true fun heq => hne ?_
    exact heq ▸ hs.linked.1 hc
  unfold detach
  split
  · next hroot => rw [hothers (by rw [hroot]; simp)]
  · next p hparent =>
    have hlt := hs.parent_lt hparent
    rw [children, word_setChildren _ p (List.filter fun c => decide (c ≠ id)), size_update]
    simp only [hlt, and_true]
    have hchildren : (s.update id fun n => { n with parent := none }).children x =
        s.children x := by
      rw [children, word_setParent]
      rfl
    rw [hchildren]
    split
    · rfl
    · next hx => rw [hothers fun heq => hx (Option.some.inj (hparent.symm.trans heq)).symm]

/-- Detaching takes nothing above a word that was not there. -/
theorem Above.of_detach {id above x : WordId} (h : (s.detach id).Above above x) :
    s.Above above x := by
  induction h with
  | refl => exact .refl
  | up hparent _ ih =>
    rw [parent_detach] at hparent
    split at hparent
    · cases hparent
    · exact .up hparent ih

theorem WellFormed.detach (hs : s.WellFormed) (id : WordId) : (s.detach id).WellFormed := by
  have hchildren := children_detach hs id
  have hparent := parent_detach s id
  refine ⟨fun {p c} h => ?_, fun {p c} h => ?_, fun {p c} => ?_, fun p => ?_, fun x => ?_⟩
  · rw [hchildren] at h
    rw [size_detach]
    exact hs.child_lt (List.mem_filter.1 h).1
  · rw [hparent] at h
    rw [size_detach]
    split at h
    · cases h
    · exact hs.parent_lt h
  · rw [hchildren, hparent, List.mem_filter, hs.linked]
    by_cases hc : c = id <;> simp [hc]
  · rw [hchildren]
    exact (hs.nodup p).filter _
  · obtain ⟨n, hdepth⟩ := hs.rooted x
    induction hdepth with
    | @root x h =>
      refine ⟨0, .root ?_⟩
      rw [hparent, h, ite_self]
    | @under x p n h _ ih =>
      obtain ⟨m, hm⟩ := ih
      by_cases hx : x = id
      · exact ⟨0, .root (by rw [hparent, if_pos hx])⟩
      · exact ⟨m + 1, .under (by rw [hparent, if_neg hx, h]) hm⟩

/-! ## Links after replacing -/

/-- To exchange one of distinct ids is to leave it out and put the other where it was. -/
theorem exchange_eq_insertIdx {old : WordId} (new : WordId) {ids : List WordId}
    (hnodup : ids.Nodup) (hold : old ∈ ids) :
    ∃ index, index ≤ (ids.filter (· ≠ old)).length ∧
      exchange old new ids = (ids.filter (· ≠ old)).insertIdx index new := by
  induction ids with
  | nil => cases hold
  | cons id ids ih =>
    rw [List.nodup_cons] at hnodup
    by_cases hid : id = old
    · have hrest : ids.filter (· ≠ old) = ids := by
        refine List.filter_eq_self.2 fun c hc => decide_eq_true ?_
        rintro rfl
        exact hnodup.1 (hid ▸ hc)
      refine ⟨0, Nat.zero_le _, ?_⟩
      rw [exchange, if_pos hid, List.filter_cons_of_neg (by simp [hid]), hrest, List.insertIdx_zero]
    · have hmem : old ∈ ids := (List.mem_cons.1 hold).resolve_left (Ne.symm hid)
      obtain ⟨index, hindex, hexchange⟩ := ih hnodup.2 hmem
      have hfilter : (id :: ids).filter (· ≠ old) = id :: ids.filter (· ≠ old) :=
        List.filter_cons_of_pos (by simp [hid])
      refine ⟨index + 1, ?_, ?_⟩
      · rw [hfilter, List.length_cons]
        omega
      · rw [exchange, if_neg hid, hexchange, hfilter, List.insertIdx_succ_cons]

/-- The old word gives way to the new one in the links of the word above it. -/
theorem links_replace {old new p : WordId} (hne : old ≠ new) (hnew : new.index < s.size)
    (hparent : (s.detach new).parent old = some p) (hp : p.index < s.size) (x : WordId) :
    (s.replace old new).2.children x =
        (if x = p then exchange old new ((s.detach new).children p)
          else (s.detach new).children x) ∧
      (s.replace old new).2.parent x =
        if x = new then some p else if x = old then none else s.parent x := by
  have hold : old.index < (s.detach new).size := lt_size_of_parent hparent
  have hold' : old.index < s.size := by rwa [size_detach] at hold
  rw [replace, if_neg hne]
  simp only [hparent]
  simp only [children, parent, word_setParent, word_setChildren _ p (exchange old new),
    size_update, size_detach, hp, hnew, hold', and_true]
  refine ⟨?_, ?_⟩
  · split
    · next hx => rw [hx]
    · rfl
  · split
    · rfl
    · next hx =>
      split
      · rfl
      · have hkept := parent_detach s new x
        rwa [if_neg hx] at hkept

/-- A word that is no argument gives way to nothing; any other to a word that
does not stand above its own place. -/
theorem WellFormed.replace (hs : s.WellFormed) {old new : WordId} (hnew : new.index < s.size)
    (habove : ∀ p, s.parent old = some p → ¬s.Above new p) : (s.replace old new).2.WellFormed := by
  by_cases hne : old = new
  · rw [Store.replace, if_pos hne]
    exact hs
  have hdetached := hs.detach new
  cases hparent : (s.detach new).parent old with
  | none =>
    rw [Store.replace, if_neg hne]
    simp only [hparent]
    exact hdetached
  | some p =>
    -- the same links come about when the old word is detached and the new one put in its place
    have hplt := hdetached.parent_lt hparent
    rw [size_detach] at hplt
    have hlinks := links_replace hne hnew hparent hplt
    have habove' : ¬s.Above new p := by
      rw [parent_detach, if_neg hne] at hparent
      exact habove p hparent
    have hnewp : new ≠ p := by
      rintro rfl
      exact habove' .refl
    obtain ⟨index, hindex, hexchange⟩ :=
      exchange_eq_insertIdx new (hdetached.nodup p) (hdetached.linked.2 hparent)
    have hchildren := children_detach hdetached old
    rw [← hchildren] at hindex hexchange
    have hsize : ((s.detach new).detach old).size = s.size := by rw [size_detach, size_detach]
    have hp : p.index < ((s.detach new).detach old).size := by rwa [hsize]
    have hnew' : new.index < ((s.detach new).detach old).size := by rwa [hsize]
    refine ((hdetached.detach old).insertChild hp hnew' ?_ ?_ hindex).of_links ?_ (fun x => ?_)
      fun x => ?_
    · rw [parent_detach, if_neg (Ne.symm hne), parent_detach, if_pos rfl]
    · exact fun h => habove' h.of_detach.of_detach
    · rw [size_insertChild, hsize, Store.replace, if_neg hne]
      simp only [hparent, size_update, size_detach, Nat.le_refl]
    · rw [(hlinks x).1, children_insertChild hp hnew' hnewp, hexchange]
      split
      · rfl
      · next hx =>
        rw [hchildren]
        refine (List.filter_eq_self.2 fun c hc => decide_eq_true ?_).symm
        rintro rfl
        exact hx (Option.some.inj ((hdetached.linked.1 hc).symm.trans hparent))
    · rw [(hlinks x).2, parent_insertChild hp hnew' hnewp, parent_detach, parent_detach]
      split <;> rfl

theorem WellFormed.setToken (hs : s.WellFormed) (id : WordId) (token : String) :
    (s.setToken id token).WellFormed := by
  have hword : ∀ x, (s.setToken id token).children x = s.children x ∧
      (s.setToken id token).parent x = s.parent x := by
    intro x
    unfold children parent
    rw [Store.setToken, word_update]
    split
    · next hx => rw [hx.1]; exact ⟨rfl, rfl⟩
    · exact ⟨rfl, rfl⟩
  refine hs.of_links ?_ (fun x => (hword x).1) fun x => (hword x).2
  exact Nat.le_of_eq (by rw [Store.setToken, size_update])

end Store

/-! ## Edits -/

/-- A change of a store. -/
inductive Edit where
  | leaf (token : String) (quote : Option Quote)
  | setToken (id : WordId) (token : String)
  | insert (parent : WordId) (index : Nat) (child : WordId)
  | detach (id : WordId)
  | replace (old new : WordId)
  deriving DecidableEq, Repr

namespace Edit

/-- The store after the edit. -/
def apply (s : Store) : Edit → Store
  | leaf token quote => (s.leaf token quote).2
  | setToken id token => s.setToken id token
  | insert parent index child => s.insertChild parent index child
  | detach id => s.detach id
  | replace old new => (s.replace old new).2

/-- The store after the edits. -/
def applyAll (s : Store) (edits : List Edit) : Store := edits.foldl apply s

/-- The arguments are in order.  What is put among the arguments of a word is no
argument and not above that word, and the place is at most behind the last one;
what a word gives way to is not above the place of that word. -/
def Allowed (s : Store) : Edit → Prop
  | leaf _ _ | setToken _ _ | detach _ => True
  | insert parent index child =>
    parent.index < s.size ∧ child.index < s.size ∧ s.parent child = none ∧
      s.isAncestor child parent = false ∧ index ≤ (s.children parent).length
  | replace old new =>
    new.index < s.size ∧ ∀ p, s.parent old = some p → s.isAncestor new p = false

/-- Each edit is allowed where it is made. -/
def AllAllowed : Store → List Edit → Prop
  | _, [] => True
  | s, edit :: edits => edit.Allowed s ∧ AllAllowed (edit.apply s) edits

/-- The edit names no word among the first `n`. -/
def Beyond (n : Nat) : Edit → Prop
  | leaf _ _ => True
  | setToken id _ | detach id => n ≤ id.index
  | insert parent _ child => n ≤ parent.index ∧ n ≤ child.index
  | replace old new => n ≤ old.index ∧ n ≤ new.index

theorem Beyond.mono {m n : Nat} {edit : Edit} (h : edit.Beyond n) (hm : m ≤ n) :
    edit.Beyond m := by
  cases edit with
  | leaf token quote => trivial
  | setToken id token => exact Nat.le_trans hm h
  | insert parent index child => exact ⟨Nat.le_trans hm h.1, Nat.le_trans hm h.2⟩
  | detach id => exact Nat.le_trans hm h
  | replace old new => exact ⟨Nat.le_trans hm h.1, Nat.le_trans hm h.2⟩

/-- An allowed edit keeps a store well-formed. -/
theorem Allowed.wellFormed {s : Store} {edit : Edit} (hs : s.WellFormed)
    (h : edit.Allowed s) : (edit.apply s).WellFormed := by
  cases edit with
  | leaf token quote => exact hs.leaf token quote
  | setToken id token => exact hs.setToken id token
  | insert parent index child =>
    obtain ⟨hp, hc, hroot, habove, hindex⟩ := h
    refine hs.insertChild hp hc hroot (fun h => ?_) hindex
    rw [(Store.isAncestor_iff hs).2 h] at habove
    cases habove
  | detach id => exact hs.detach id
  | replace old new =>
    obtain ⟨hnew, habove⟩ := h
    refine hs.replace hnew fun p hp h => ?_
    have hno := habove p hp
    rw [(Store.isAncestor_iff hs).2 h] at hno
    cases hno

/-- Allowed edits keep a store well-formed. -/
theorem AllAllowed.wellFormed {edits : List Edit} :
    ∀ {s : Store}, s.WellFormed → AllAllowed s edits → (applyAll s edits).WellFormed := by
  induction edits with
  | nil =>
    intro s hs _
    exact hs
  | cons edit edits ih =>
    intro s hs h
    exact ih (h.1.wellFormed hs) h.2

end Edit

namespace Store

/-! ## Words that are left alone -/

/-- A well-formed store, and another one that it has grown into. -/
structure Over (s₀ s : Store) : Prop where
  base : s₀.WellFormed
  extension : s₀.Extends s
  wellFormed : s.WellFormed

variable {s₀ s s' : Store}

theorem Over.refl (hs : s₀.WellFormed) : s₀.Over s₀ := ⟨hs, .refl s₀, hs⟩

/-- The arguments of new words are new. -/
theorem Over.le_child (h : s₀.Over s) {p c : WordId} (hp : s₀.size ≤ p.index)
    (hc : c ∈ s.children p) : s₀.size ≤ c.index := by
  refine Nat.le_of_not_lt fun hlt => ?_
  have hparent := h.wellFormed.linked.1 hc
  rw [parent, h.extension.word_eq c hlt] at hparent
  have := h.base.parent_lt hparent
  omega

/-- The word above a new one is new. -/
theorem Over.le_parent (h : s₀.Over s) {p c : WordId} (hc : s₀.size ≤ c.index)
    (hp : s.parent c = some p) : s₀.size ≤ p.index := by
  refine Nat.le_of_not_lt fun hlt => ?_
  have hmem := h.wellFormed.linked.2 hp
  rw [children, h.extension.word_eq p hlt] at hmem
  have := h.base.child_lt hmem
  omega

theorem size_replace (s : Store) (old new : WordId) : (s.replace old new).2.size = s.size := by
  unfold replace
  split
  · rfl
  · dsimp only
    split <;> simp only [size_update, size_detach]

theorem size_le_apply (s : Store) (edit : Edit) : s.size ≤ (edit.apply s).size := by
  cases edit with
  | leaf token quote => rw [Edit.apply, size_leaf]; exact Nat.le_succ _
  | setToken id token => exact Nat.le_of_eq (by rw [Edit.apply, setToken, size_update])
  | insert parent index child => exact Nat.le_of_eq (by rw [Edit.apply, size_insertChild])
  | detach id => exact Nat.le_of_eq (by rw [Edit.apply, size_detach])
  | replace old new => exact Nat.le_of_eq (by rw [Edit.apply, size_replace])

theorem word_detach_of_ne {id x : WordId} (hx : x ≠ id) (hp : s.parent id ≠ some x) :
    (s.detach id).word x = s.word x := by
  unfold detach
  split
  · rfl
  · next p hparent =>
    have hxp : x ≠ p := by
      rintro rfl
      exact hp hparent
    rw [word_update, if_neg (fun h => hxp h.1), word_update, if_neg (fun h => hx h.1)]

theorem word_replace_of_ne {old new x : WordId} (hold : x ≠ old) (hnew : x ≠ new)
    (hpold : s.parent old ≠ some x) (hpnew : s.parent new ≠ some x) :
    (s.replace old new).2.word x = s.word x := by
  have hdetach := word_detach_of_ne hnew hpnew
  unfold replace
  split
  · rfl
  · next hne =>
    dsimp only
    split
    · exact hdetach
    · next p hparent =>
      have hxp : x ≠ p := by
        rintro rfl
        rw [parent_detach, if_neg hne] at hparent
        exact hpold hparent
      rw [word_update, if_neg (fun h => hnew h.1), word_update, if_neg (fun h => hxp h.1),
        word_update, if_neg (fun h => hold h.1), hdetach]

/-- An edit that names only new words leaves the others as they are. -/
theorem Over.apply (h : s₀.Over s) {edit : Edit} (hallowed : edit.Allowed s)
    (hbeyond : edit.Beyond s₀.size) : s₀.Over (edit.apply s) := by
  refine ⟨h.base, ⟨Nat.le_trans h.extension.size_le (size_le_apply s edit), fun x hx => ?_⟩,
    hallowed.wellFormed h.wellFormed⟩
  rw [← h.extension.word_eq x hx]
  have hne : ∀ {id : WordId}, s₀.size ≤ id.index → x ≠ id := by
    rintro id hid rfl
    omega
  have hparent : ∀ {id : WordId}, s₀.size ≤ id.index → s.parent id ≠ some x := by
    intro id hid hp
    have := h.le_parent hid hp
    omega
  cases edit with
  | leaf token quote =>
    have hfresh : x ≠ ⟨s.size⟩ := hne h.extension.size_le
    rw [Edit.apply, word_leaf, if_neg hfresh]
  | setToken id token =>
    rw [Edit.apply, setToken, word_update, if_neg fun heq => hne hbeyond heq.1]
  | insert parent index child =>
    rw [Edit.apply, insertChild, word_update, if_neg fun heq => hne hbeyond.2 heq.1, word_update,
      if_neg fun heq => hne hbeyond.1 heq.1]
  | detach id => exact word_detach_of_ne (hne hbeyond) (hparent hbeyond)
  | replace old new =>
    exact word_replace_of_ne (hne hbeyond.1) (hne hbeyond.2) (hparent hbeyond.1)
      (hparent hbeyond.2)

/-! ## Runs of edits -/

/-- The edits lead from the one store to the other, each is allowed where it is
made, and none names one of the first `n` words. -/
inductive Edited (n : Nat) : Store → List Edit → Store → Prop where
  | nil (s : Store) : Edited n s [] s
  | cons {s s' : Store} {edit : Edit} {edits : List Edit} (hallowed : edit.Allowed s)
      (hbeyond : edit.Beyond n) (h : Edited n (edit.apply s) edits s') :
      Edited n s (edit :: edits) s'

theorem Edited.append {n : Nat} {s s' s'' : Store} {edits more : List Edit}
    (h : Edited n s edits s') (h' : Edited n s' more s'') : Edited n s (edits ++ more) s'' := by
  induction h with
  | nil s => exact h'
  | cons hallowed hbeyond _ ih => exact .cons hallowed hbeyond (ih h')

theorem Edited.one {n : Nat} {edit : Edit} (hallowed : edit.Allowed s) (hbeyond : edit.Beyond n) :
    Edited n s [edit] (edit.apply s) :=
  .cons hallowed hbeyond (.nil _)

/-- Edits that spare the first words spare any fewer of them. -/
theorem Edited.mono {m n : Nat} {edits : List Edit} (h : Edited n s edits s') (hm : m ≤ n) :
    Edited m s edits s' := by
  induction h with
  | nil s => exact .nil s
  | cons hallowed hbeyond _ ih => exact .cons hallowed (hbeyond.mono hm) ih

theorem Edited.wellFormed {n : Nat} {edits : List Edit} (h : Edited n s edits s')
    (hs : s.WellFormed) : s'.WellFormed := by
  induction h with
  | nil s => exact hs
  | cons hallowed _ _ ih => exact ih (hallowed.wellFormed hs)

theorem Edited.applyAll_eq {n : Nat} {edits : List Edit} (h : Edited n s edits s') :
    Edit.applyAll s edits = s' := by
  induction h with
  | nil s => rfl
  | cons _ _ _ ih => exact ih

theorem Edited.allAllowed {n : Nat} {edits : List Edit} (h : Edited n s edits s') :
    Edit.AllAllowed s edits := by
  induction h with
  | nil s => trivial
  | cons hallowed _ _ ih => exact ⟨hallowed, ih⟩

/-- Edits that spare the first words lead to a store that has grown over them. -/
theorem Edited.over {edits : List Edit} (h : Edited s₀.size s edits s') (hs : s₀.Over s) :
    s₀.Over s' := by
  induction h with
  | nil s => exact hs
  | cons hallowed hbeyond _ ih => exact ih (hs.apply hallowed hbeyond)

end Store
end ResourceQuery

import ResourceQuery.Proofs.Query.Filter
import ResourceQuery.Proofs.Term.Operations

set_option autoImplicit false

/-!
# Query: the edits of a claim

The edits that a query makes in its store when it takes a term, in order, from
the lifting of a parameter to the parts that a selection hands to the filter.
When the term is new in the store and no argument of another, all these edits
are allowed and name only new words, whether the term is taken in the end or
not.

Edits are listed beside the functions that make them, each in the store it is
made in, and `Edited` says that a list leads from one store to the other with
every edit allowed.  What has to be kept in hand is which words are loose, for
only those may be put under others.
-/

namespace ResourceQuery

namespace Store

variable {s₀ s s' s'' : Store} {n : Nat} {x : WordId}

/-! ## Words that stay loose -/

/-- Words that are no arguments are none afterwards. -/
structure Loosens (s s' : Store) : Prop where
  size_le : s.size ≤ s'.size
  root : ∀ x : WordId, x.index < s.size → s.parent x = none → s'.parent x = none

theorem Loosens.refl (s : Store) : s.Loosens s := ⟨Nat.le_refl _, fun _ _ h => h⟩

theorem Loosens.trans (h : s.Loosens s') (h' : s'.Loosens s'') : s.Loosens s'' :=
  ⟨Nat.le_trans h.size_le h'.size_le, fun x hx hroot =>
    h'.root x (Nat.lt_of_lt_of_le hx h.size_le) (h.root x hx hroot)⟩

theorem Extends.loosens (h : s.Extends s') : s.Loosens s' :=
  ⟨h.size_le, fun x hx hroot => by rw [parent, h.word_eq x hx]; exact hroot⟩

/-- A loose word stays loose. -/
theorem Loose.mono (hx : Loose n s x) (h : s.Loosens s') : Loose n s' x :=
  ⟨hx.le, Nat.lt_of_lt_of_le hx.lt h.size_le, h.root x hx.lt hx.root⟩

theorem loosens_detach (s : Store) (id : WordId) : s.Loosens (s.detach id) := by
  refine ⟨Nat.le_of_eq (size_detach s id).symm, fun x _ hroot => ?_⟩
  rw [parent_detach, hroot, ite_self]

theorem loosens_detachAll (ids : List WordId) : ∀ s : Store, s.Loosens (s.detachAll ids) := by
  induction ids with
  | nil => exact Loosens.refl
  | cons id ids ih => exact fun s => (loosens_detach s id).trans (ih (s.detach id))

/-- Detached words are loose. -/
theorem loose_detachAll {ids : List WordId} :
    ∀ {s : Store}, (∀ x ∈ ids, n ≤ x.index ∧ x.index < s.size) →
      ∀ x ∈ ids, Loose n (s.detachAll ids) x := by
  induction ids with
  | nil => exact fun _ x hx => absurd hx List.not_mem_nil
  | cons id ids ih =>
    intro s hids x hx
    obtain ⟨hle, hlt⟩ := hids x hx
    by_cases hid : x = id
    · have hfirst : Loose n (s.detach id) x := by
        refine ⟨hle, by rwa [size_detach], ?_⟩
        rw [parent_detach, if_pos hid]
      exact hfirst.mono (loosens_detachAll ids (s.detach id))
    · have hmem : x ∈ ids := (List.mem_cons.1 hx).resolve_left hid
      refine ih (s := s.detach id) (fun y hy => ?_) x hmem
      rw [size_detach]
      exact hids y (List.mem_cons_of_mem id hy)

/-- Detaching is allowed whatever the word is. -/
theorem edited_detachAll {ids : List WordId} (hids : ∀ x ∈ ids, n ≤ x.index) :
    ∀ s : Store, Edited n s (ids.map .detach) (s.detachAll ids) := by
  induction ids with
  | nil => exact fun s => .nil s
  | cons id ids ih =>
    intro s
    exact .cons trivial (hids id List.mem_cons_self)
      (ih (fun x hx => hids x (List.mem_cons_of_mem id hx)) (s.detach id))

/-- A word over others leaves loose what is not put under it. -/
theorem Loose.adopt (hx : Loose n s x) (token : String) (quote : Option Quote)
    {ids : List WordId} (hids : ∀ c ∈ ids, c.index < s.size) (hmem : x ∉ ids) :
    Loose n (s.adopt token quote ids).2 x := by
  obtain ⟨_, hsize, _, _, hword⟩ := adopt_spec s token quote hids
  refine ⟨hx.le, by rw [hsize]; exact Nat.lt_succ_of_lt hx.lt, ?_⟩
  rw [parent, hword x hx.lt hmem]
  exact hx.root

/-- The arguments of a loose word are new words. -/
theorem Over.children_within (h : s₀.Over s) {id : WordId} (hid : Loose s₀.size s id) :
    ∀ x ∈ s.children id, s₀.size ≤ x.index ∧ x.index < s.size :=
  fun _ hx => ⟨h.le_child hid.le hx, h.wellFormed.child_lt hx⟩

/-- All words of a term are new if its root is. -/
theorem Over.le_ids (h : s₀.Over s) {P : Plot} (hP : s.Shows P) (hroot : s₀.size ≤ P.id.index) :
    ∀ x ∈ P.ids, s₀.size ≤ x.index := by
  induction P using Plot.induction with
  | node id token quote children ih =>
    intro x hx
    rw [Plot.ids_node] at hx
    rcases List.mem_cons.1 hx with rfl | hx
    · exact hroot
    · obtain ⟨Q, hQ, hx⟩ := List.mem_flatMap.1 hx
      have hmem : Q.id ∈ s.children id := by
        have hchildren := hP.children_eq
        rw [Plot.id, Plot.children] at hchildren
        rw [hchildren]
        exact List.mem_map_of_mem hQ
      exact ih Q hQ (hP.child hQ) (h.le_child hroot hmem) x hx

/-- A term is added beside loose words. -/
theorem edited_planted (h : s₀.Over s) (t : Term) :
    Edited s₀.size s (s.plantEdits t) (s.plant t).2 ∧
      Loose s₀.size (s.plant t).2 (s.plant t).1 ∧
      ∀ x, Loose s₀.size s x → Loose s₀.size (s.plant t).2 x ∧ x ≠ (s.plant t).1 := by
  refine ⟨edited_plant t h.wellFormed h.extension.size_le, loose_plant h.extension.size_le t,
    fun x hx => ⟨hx.mono (extends_plant s t).loosens, ?_⟩⟩
  rintro rfl
  exact absurd (loose_plant (Nat.le_refl _) t).le (Nat.not_le_of_lt hx.lt)

/-- Loose words are put under a new word, beside other loose words. -/
theorem edited_call (h : s₀.Over s) (token : String) (ids : List WordId) (hnodup : ids.Nodup)
    (hids : ∀ c ∈ ids, Loose s₀.size s c) :
    Edited s₀.size s (s.adoptEdits token none ids) (s.call token ids).2 ∧
      Loose s₀.size (s.call token ids).2 (s.call token ids).1 ∧
      ∀ x, Loose s₀.size s x → x ∉ ids →
        Loose s₀.size (s.call token ids).2 x ∧ x ≠ (s.call token ids).1 := by
  have hlt : ∀ c ∈ ids, c.index < s.size := fun c hc => (hids c hc).lt
  refine ⟨edited_adopt h.wellFormed h.extension.size_le token none hnodup hids,
    loose_adopt h.extension.size_le token none hlt,
    fun x hx hmem => ⟨hx.adopt token none hlt hmem, ?_⟩⟩
  rintro rfl
  exact absurd (loose_adopt (Nat.le_refl _) token none hlt).le (Nat.not_le_of_lt hx.lt)

/-- Words are detached, and then loose, beside other loose words. -/
theorem edited_detached (h : s₀.Over s) {ids : List WordId}
    (hids : ∀ x ∈ ids, s₀.size ≤ x.index ∧ x.index < s.size) :
    Edited s₀.size s (ids.map .detach) (s.detachAll ids) ∧ s₀.Over (s.detachAll ids) ∧
      (∀ x ∈ ids, Loose s₀.size (s.detachAll ids) x) ∧
      ∀ x, Loose s₀.size s x → Loose s₀.size (s.detachAll ids) x := by
  have hedited := edited_detachAll (fun x hx => (hids x hx).1) s
  exact ⟨hedited, hedited.over h, loose_detachAll hids,
    fun x hx => hx.mono (loosens_detachAll ids s)⟩

/-- Nothing new stands above an old word. -/
theorem Extends.lt_of_above (hs : s.WellFormed) (h : s.Extends s') {above : WordId}
    (habove : s'.Above above x) : x.index < s.size → above.index < s.size := by
  induction habove with
  | refl => exact id
  | @up x p hparent _ ih =>
    intro hx
    rw [parent, h.word_eq x hx] at hparent
    exact ih (hs.parent_lt hparent)

/-- A word that is no argument stays so when another gives way. -/
theorem parent_replace_of_root {old new : WordId} (hnew : x ≠ new) (hroot : s.parent x = none) :
    (s.replace old new).2.parent x = none := by
  have hdetach : (s.detach new).parent x = none := by rw [parent_detach, hroot, ite_self]
  unfold replace
  split
  · exact hroot
  · dsimp only
    split
    · exact hdetach
    · next p _ =>
      simp only [parent, word_setParent, word_setChildren _ p (exchange old new), hnew, false_and,
        if_false]
      split
      · rfl
      · exact hdetach

/-- A word gives way to a term that is added for it. -/
theorem replace_planted (h : s₀.Over s) {id : WordId} (hle : s₀.size ≤ id.index)
    (hlt : id.index < s.size) (t : Term) :
    Edited s₀.size (s.plant t).2 [.replace id (s.plant t).1]
        ((s.plant t).2.replace id (s.plant t).1).2 ∧
      s.Loosens ((s.plant t).2.replace id (s.plant t).1).2 := by
  have hext := extends_plant s t
  have hfresh := loose_plant (n := s.size) (Nat.le_refl _) t
  have hwf := WellFormed.plant t h.wellFormed
  refine ⟨.one ⟨hfresh.lt, fun p hp => ?_⟩ ⟨hle, ?_⟩, ?_, fun x hx hroot => ?_⟩
  · rw [parent, hext.word_eq id hlt] at hp
    rw [Bool.eq_false_iff]
    intro habove
    have := hext.lt_of_above h.wellFormed ((isAncestor_iff hwf).1 habove) (h.wellFormed.parent_lt hp)
    exact absurd hfresh.le (Nat.not_le_of_lt this)
  · exact Nat.le_trans h.extension.size_le hfresh.le
  · rw [size_replace]
    exact hext.size_le
  · refine parent_replace_of_root ?_ (hext.loosens.root x hx hroot)
    rintro rfl
    exact absurd hfresh.le (Nat.not_le_of_lt hx)

/-! ## Runs over lists -/

/-- The edits of a run over a list: those of each step, in the store that the
steps before it leave. -/
def runEdits {α : Type} (step : Store → α → Store) (edits : Store → α → List Edit) :
    List α → Store → List Edit
  | [], _ => []
  | x :: xs, s => edits s x ++ runEdits step edits xs (step s x)

end Store

/-! ## The filter -/

namespace Condition

open Store (Edited Loose Loosens Over)

variable {c : Collection} {s₀ s s' : Store}

/-- The edits that resolve the key terms at the ids. -/
def resolveKeysAtEdits (c : Collection) : List WordId → WordId → Store → List Edit
  | [], _, _ => []
  | id :: ids, root, s =>
    match keyComparisons c (s.read id) with
    | .error _ => []
    | .ok expansion =>
      let (fresh, s') := s.plant expansion
      s.plantEdits expansion ++
        if id = root then resolveKeysAtEdits c ids fresh s'
        else .replace id fresh :: resolveKeysAtEdits c ids root (s'.replace id fresh).2

/-- The edits that turn every `eq` with several values under `root` into `in`. -/
def widenEdits (root : WordId) (s : Store) : List Edit :=
  ((s.findAll root "eq").filter fun id => 2 < (s.children id).length).map (.setToken · "in")

/-- The edits that take a conjunction apart. -/
def conjunctsEdits : Nat → Store → WordId → List Edit
  | 0, _, _ => []
  | depth + 1, s, id =>
    if s.hasToken id "and" then
      Store.runEdits (fun s child => (conjuncts depth (s.detach child) child).2)
        (fun s child => .detach child :: conjunctsEdits depth (s.detach child) child)
        (s.children id) s
    else []

/-- The edits of a claim on the filter. -/
def claimEdits (c : Collection) (s : Store) (id : WordId) : List Edit :=
  resolveKeysAtEdits c (s.findAll id "_key") id s ++
    match resolveKeys c id s with
    | (.error _, _) => []
    | (.ok root, s) =>
      widenEdits root s ++
        conjunctsEdits ((widenEquations root s).size + 1) (widenEquations root s) root

/-- Keys give way to what they stand for by allowed edits.  The root stays, or
it is a key and the last word that was added for it takes its part. -/
theorem edited_resolveKeysAt (ids : List WordId) :
    ∀ {s : Store} {root : WordId}, s₀.Over s →
      (∀ x ∈ ids, s₀.size ≤ x.index ∧ x.index < s.size) → Loose s₀.size s root →
      Edited s₀.size s (resolveKeysAtEdits c ids root s) (resolveKeysAt c ids root s).2 ∧
        s.Loosens (resolveKeysAt c ids root s).2 ∧
        ∀ root', (resolveKeysAt c ids root s).1 = .ok root' →
          Loose s₀.size (resolveKeysAt c ids root s).2 root' ∧
            (root' = root ∨ s.size ≤ root'.index) := by
  induction ids with
  | nil =>
    intro s root _ _ hroot
    refine ⟨.nil s, .refl s, fun root' h => ?_⟩
    cases h
    exact ⟨hroot, .inl rfl⟩
  | cons id ids ih =>
    intro s root hover hids hroot
    obtain ⟨hle, hlt⟩ := hids id List.mem_cons_self
    have hrest := fun x hx => hids x (List.mem_cons_of_mem id hx)
    unfold resolveKeysAt resolveKeysAtEdits
    cases hexpansion : keyComparisons c (s.read id) with
    | error fault =>
      refine ⟨.nil s, .refl s, fun root' h => ?_⟩
      cases h
    | ok expansion =>
      have hplant := Store.edited_plant (n := s₀.size) expansion hover.wellFormed
        hover.extension.size_le
      have hfresh := Store.loose_plant (n := s.size) (Nat.le_refl _) expansion
      have hext := s.extends_plant expansion
      by_cases hid : id = root
      · simp only [if_pos hid]
        have hroot' : Loose s₀.size (s.plant expansion).2 (s.plant expansion).1 :=
          Store.loose_plant hover.extension.size_le expansion
        obtain ⟨hedited, hloosens, hresult⟩ := ih (hplant.over hover)
          (fun x hx => ⟨(hrest x hx).1, Nat.lt_of_lt_of_le (hrest x hx).2 hext.size_le⟩) hroot'
        refine ⟨hplant.append hedited, hext.loosens.trans hloosens, fun root' h => ?_⟩
        obtain ⟨hloose, hwhich⟩ := hresult root' h
        refine ⟨hloose, .inr ?_⟩
        rcases hwhich with rfl | hle
        · exact hfresh.le
        · exact Nat.le_trans hext.size_le hle
      · simp only [if_neg hid]
        obtain ⟨hreplace, hkept⟩ := Store.replace_planted hover hle hlt expansion
        obtain ⟨hedited, hloosens, hresult⟩ := ih (hreplace.over (hplant.over hover))
          (fun x hx => ⟨(hrest x hx).1, Nat.lt_of_lt_of_le (hrest x hx).2 hkept.size_le⟩)
          (hroot.mono hkept)
        refine ⟨hplant.append (hreplace.append hedited), hkept.trans hloosens, fun root' h => ?_⟩
        obtain ⟨hloose, hwhich⟩ := hresult root' h
        exact ⟨hloose, hwhich.imp_right (Nat.le_trans hkept.size_le)⟩

theorem loosens_widenAt (s : Store) (id : WordId) : s.Loosens (widenAt s id) := by
  refine ⟨Nat.le_of_eq (renamed_widenAt s id).size_eq.symm, fun x _ hroot => ?_⟩
  unfold widenAt
  split
  · rw [Store.parent, Store.word_setToken]
    exact hroot
  · exact hroot

/-- Wide equations get their word one after the other, by allowed edits. -/
theorem edited_widenAll {n : Nat} {ids : List WordId} (hids : ∀ x ∈ ids, n ≤ x.index) :
    ∀ s : Store,
      Edited n s ((ids.filter fun id => 2 < (s.children id).length).map (.setToken · "in"))
          (ids.foldl widenAt s) ∧
        s.Loosens (ids.foldl widenAt s) := by
  induction ids with
  | nil => exact fun s => ⟨.nil s, .refl s⟩
  | cons id ids ih =>
    intro s
    obtain ⟨hedited, hloosens⟩ :=
      ih (fun x hx => hids x (List.mem_cons_of_mem id hx)) (widenAt s id)
    simp only [(renamed_widenAt s id).children_eq] at hedited
    refine ⟨?_, (loosens_widenAt s id).trans hloosens⟩
    rw [List.foldl_cons]
    by_cases hwide : 2 < (s.children id).length
    · rw [List.filter_cons_of_pos (by simpa using hwide)]
      have hat : widenAt s id = s.setToken id "in" := if_pos hwide
      rw [hat] at hedited ⊢
      exact .cons trivial (hids id List.mem_cons_self) hedited
    · rw [List.filter_cons_of_neg (by simpa using hwide)]
      have hat : widenAt s id = s := if_neg hwide
      rw [hat] at hedited ⊢
      exact hedited

/-- The conjunction is taken apart by allowed edits, and its conjuncts are loose. -/
structure Freed (s₀ s : Store) (edits : List Edit) (result : List WordId × Store) : Prop where
  edited : Edited s₀.size s edits result.2
  loosens : s.Loosens result.2
  loose : ∀ x ∈ result.1, Loose s₀.size result.2 x

/-- The run over the arguments of a conjunction, given what happens to each of them. -/
theorem freed_foldl {depth : Nat}
    (hone : ∀ {s : Store} {id : WordId}, s₀.Over s → Loose s₀.size s id →
      Freed s₀ s (conjunctsEdits depth s id) (conjuncts depth s id)) (ids : List WordId) :
    ∀ {s : Store}, s₀.Over s → (∀ x ∈ ids, s₀.size ≤ x.index ∧ x.index < s.size) →
      Freed s₀ s
        (Store.runEdits (fun s child => (conjuncts depth (s.detach child) child).2)
          (fun s child => .detach child :: conjunctsEdits depth (s.detach child) child) ids s)
        (ids.foldl (conjunctsStep depth) ([], s)) := by
  induction ids with
  | nil => exact fun _ _ => ⟨.nil _, .refl _, fun x hx => absurd hx List.not_mem_nil⟩
  | cons id ids ih =>
    intro s hover hids
    obtain ⟨hle, hlt⟩ := hids id List.mem_cons_self
    have hdetach : Edited s₀.size s [.detach id] (s.detach id) := .one trivial hle
    have hid : Loose s₀.size (s.detach id) id :=
      ⟨hle, by rwa [Store.size_detach], by rw [Store.parent_detach, if_pos rfl]⟩
    have hfirst := hone (hdetach.over hover) hid
    have hkept := (s.loosens_detach id).trans hfirst.loosens
    have hothers := ih (hfirst.edited.over (hdetach.over hover)) fun x hx =>
      have hx := hids x (List.mem_cons_of_mem id hx)
      ⟨hx.1, Nat.lt_of_lt_of_le hx.2 hkept.size_le⟩
    rw [List.foldl_cons, conjunctsStep, foldl_conjunctsStep]
    refine ⟨(hdetach.append hfirst.edited).append hothers.edited, hkept.trans hothers.loosens,
      fun x hx => ?_⟩
    rcases List.mem_append.1 hx with hx | hx
    · rw [List.nil_append] at hx
      exact (hfirst.loose x hx).mono hothers.loosens
    · exact hothers.loose x hx

/-- A conjunction is taken apart by allowed edits. -/
theorem freed_conjuncts (depth : Nat) : ∀ {s : Store} {id : WordId}, s₀.Over s →
    Loose s₀.size s id → Freed s₀ s (conjunctsEdits depth s id) (conjuncts depth s id) := by
  have hsingle : ∀ {s : Store} {id : WordId}, Loose s₀.size s id → Freed s₀ s [] ([id], s) :=
    fun {s id} hid => ⟨.nil s, .refl s, fun x hx => by rw [List.mem_singleton.1 hx]; exact hid⟩
  induction depth with
  | zero => exact fun _ hid => hsingle hid
  | succ depth ih =>
    intro s id hover hid
    rw [conjunctsEdits]
    by_cases hand : s.hasToken id "and" = true
    · rw [conjuncts_and hand, if_pos hand]
      exact freed_foldl ih (s.children id) hover (hover.children_within hid)
    · rw [Bool.not_eq_true] at hand
      rw [conjuncts_other hand, hand]
      exact hsingle hid

theorem sublist_foldl {depth : Nat} (Qs : List Plot)
    (hone : ∀ Q ∈ Qs, ∀ {s : Store}, s.Shows Q →
      Parted s Q.inner Q.term.conjuncts (conjuncts depth s Q.id) ∧
        (conjuncts depth s Q.id).1.Sublist Q.ids) :
    ∀ {s : Store}, (∀ Q ∈ Qs, s.Shows Q) → (Qs.flatMap Plot.ids).Nodup →
      ((Qs.map Plot.id).foldl (conjunctsStep depth) ([], s)).1.Sublist
        (Qs.flatMap Plot.ids) := by
  induction Qs with
  | nil => exact fun _ _ => List.Sublist.refl _
  | cons Q Qs ih =>
    intro s hshows hnodup
    have hparts := hnodup
    rw [List.flatMap_cons, List.nodup_append] at hparts
    obtain ⟨hQ, hQs, _⟩ := hparts
    have hroot : Q.id ∉ Q.inner := by
      rw [Plot.ids_eq, List.nodup_cons] at hQ
      exact hQ.1
    obtain ⟨hparted, hfirst⟩ :=
      hone Q List.mem_cons_self ((hshows Q List.mem_cons_self).detach hroot)
    have hrest := ih (fun R hR => hone R (List.mem_cons_of_mem Q hR))
      (hparted.siblings hnodup fun R hR => hshows R (List.mem_cons_of_mem Q hR)) hQs
    rw [List.map_cons, List.foldl_cons, conjunctsStep, foldl_conjunctsStep, List.flatMap_cons]
    exact hfirst.append hrest

/-- The conjuncts are words of the term, in the order in which they stand there. -/
theorem sublist_conjuncts (depth : Nat) :
    ∀ {P : Plot}, P.ids.Nodup → P.ids.length ≤ depth → ∀ {s : Store}, s.Shows P →
      (conjuncts depth s P.id).1.Sublist P.ids := by
  have hself : ∀ P : Plot, [P.id].Sublist P.ids := fun P =>
    List.singleton_sublist.2 P.id_mem_ids
  induction depth with
  | zero => exact fun {P} _ _ {s} _ => hself P
  | succ depth ih =>
    intro P hnodup hdepth s hP
    by_cases hand : s.hasToken P.id "and" = true
    · have hinner : P.inner.Nodup := by
        rw [Plot.ids_eq, List.nodup_cons] at hnodup
        exact hnodup.2
      rw [conjuncts_and hand, hP.children_eq, Plot.ids_eq]
      refine .cons _ (sublist_foldl P.children (fun Q hQ {s} hQs => ?_)
        (fun Q hQ => hP.child hQ) hinner)
      have hless := Plot.length_ids_lt hQ
      have hQnodup := Plot.nodup_of_mem hnodup hQ
      exact ⟨parted_conjuncts depth hQnodup (by omega) hQs, ih hQnodup (by omega) hQs⟩
    · rw [Bool.not_eq_true] at hand
      rw [conjuncts_other hand]
      exact hself P

/-- The words at which a name is found in a new term are new. -/
theorem findAll_within (h : s₀.Over s) {id : WordId} (hid : Loose s₀.size s id) (word : String) :
    ∀ x ∈ s.findAll id word, s₀.size ≤ x.index ∧ x.index < s.size := by
  obtain ⟨P, rfl, hP, hnodup⟩ := h.wellFormed.exists_plot hid.lt
  intro x hx
  have hmem := (List.mem_filter.1 hx).1
  rw [hP.preorder_eq hnodup] at hmem
  exact ⟨h.le_ids hP hid.le x hmem, hP.ids_lt x hmem⟩

theorem edited_widen (h : s₀.Over s) {root : WordId} (hroot : Loose s₀.size s root) :
    Edited s₀.size s (widenEdits root s) (widenEquations root s) ∧
      s.Loosens (widenEquations root s) :=
  edited_widenAll (fun x hx => (findAll_within h hroot "eq" x hx).1) s

/-- The conjuncts are distinct, and all but the root itself were arguments. -/
theorem distinct_conjuncts (hs : s.WellFormed) {root : WordId} (hroot : root.index < s.size) :
    (conjuncts (s.size + 1) s root).1.Nodup ∧
      ∀ x ∈ (conjuncts (s.size + 1) s root).1, s.parent x = none → x = root := by
  obtain ⟨P, rfl, hP, hnodup⟩ := hs.exists_plot hroot
  have hfuel : P.ids.length ≤ s.size + 1 :=
    Nat.le_succ_of_le (Store.length_le_size hnodup hP.ids_lt)
  have hsub := sublist_conjuncts _ hnodup hfuel hP
  refine ⟨hnodup.sublist hsub, fun x hx hfree => ?_⟩
  obtain ⟨Q, hQ, rfl⟩ := Plot.mem_ids_iff.1 (hsub.subset hx)
  rcases hQ.eq_or_child with rfl | ⟨R, hR, hQR⟩
  · rfl
  · have hmem : Q.id ∈ s.children R.id := by
      rw [(hP.under hR).children_eq]
      exact List.mem_map_of_mem hQR
    exact absurd (hs.linked.1 hmem) (by rw [hfree]; simp)

/-- A claim on the filter makes allowed edits only.  Loose words stay loose,
those that are claimed are loose and distinct, and the only one of them that was
loose before is the root of the term. -/
theorem edited_claim (h : s₀.Over s) {id : WordId} (hid : Loose s₀.size s id) :
    Edited s₀.size s (claimEdits c s id) (claim c s id).2 ∧ s.Loosens (claim c s id).2 ∧
      ∀ ids, (claim c s id).1 = .ok ids →
        ids.Nodup ∧ (∀ x ∈ ids, Loose s₀.size (claim c s id).2 x) ∧
          ∀ x ∈ ids, x.index < s.size → s.parent x = none → x = id := by
  obtain ⟨hkeys, hkept, hroot⟩ :=
    edited_resolveKeysAt (c := c) (s.findAll id "_key") h (findAll_within h hid "_key") hid
  have hover := hkeys.over h
  unfold claim claimEdits
  rw [← resolveKeys] at hkeys hkept hroot hover
  generalize resolveKeys c id s = resolved at hkeys hkept hroot hover ⊢
  obtain ⟨outcome, s₁⟩ := resolved
  dsimp only at hkeys hkept hroot hover
  cases outcome with
  | error fault =>
    refine ⟨hkeys.append (.nil _), hkept, fun ids hids => ?_⟩
    cases hids
  | ok root =>
    obtain ⟨hloose, hwhich⟩ := hroot root rfl
    obtain ⟨hwiden, hwidened⟩ := edited_widen hover hloose
    have hroot' := hloose.mono hwidened
    have hover' := hwiden.over hover
    have hfreed := freed_conjuncts ((widenEquations root s₁).size + 1) hover' hroot'
    obtain ⟨hnodup, hwere⟩ := distinct_conjuncts hover'.wellFormed hroot'.lt
    refine ⟨hkeys.append (hwiden.append hfreed.edited),
      (hkept.trans hwidened).trans hfreed.loosens, fun ids hids => ?_⟩
    have hids := Except.ok.inj hids
    subst hids
    refine ⟨hnodup, hfreed.loose, fun x hx hlt hfree => ?_⟩
    obtain rfl := hwere x hx ((hkept.trans hwidened).root x hlt hfree)
    exact hwhich.resolve_right (Nat.not_le_of_lt hlt)

end Condition

/-! ## The selection -/

namespace Selection

open Store (Edited Loose Over)

variable {s₀ s : Store}

/-- The edits that name an aggregate by the anonymous alias. -/
def labelEdits (s : Store) (id : WordId) : List Edit :=
  let (label, s') := s.plant anonymousLeaf
  s.plantEdits anonymousLeaf ++ s'.adoptEdits "as" none [id, label]

/-- The grouping by a column, once the arguments of an aggregate are detached. -/
def groupingOf (s : Store) (ids : List WordId) (column : WordId) : WordId × Store :=
  (s.detachAll ids).plant (.call "group" [(s.detachAll ids).read column])

/-- The column under the function, beside the grouping. -/
def callOf (s : Store) (ids : List WordId) (name : String) (column : WordId) : WordId × Store :=
  (groupingOf s ids column).2.call name [column]

theorem aggregate_pair {id function column : WordId} (hchildren : s.children id = [function, column])
    (hname : (s.isLeaf function && !s.isQuoted function) = true) :
    aggregate s id =
      let call := callOf s [function, column] (s.token function) column
      let named := labelAnonymously call.2 call.1
      (.ok ⟨[named.1], some (groupingOf s [function, column] column).1, none⟩, named.2) := by
  simp only [aggregate, hchildren, hname, if_true]
  rfl

theorem aggregate_triple {id function column label : WordId}
    (hchildren : s.children id = [function, column, label])
    (hname : (s.isLeaf function && !s.isQuoted function) = true) :
    aggregate s id =
      let call := callOf s [function, column, label] (s.token function) column
      let named := call.2.call "as" [call.1, label]
      (.ok ⟨[named.1], some (groupingOf s [function, column, label] column).1, none⟩, named.2) := by
  simp only [aggregate, hchildren, hname, if_true]
  rfl

/-- In all other cases an aggregate is at fault, and nothing is done. -/
theorem aggregate_error {id : WordId} (h : ∀ function column, (s.isLeaf function &&
      !s.isQuoted function) = true → s.children id ≠ [function, column] ∧
        ∀ label, s.children id ≠ [function, column, label]) :
    ∃ fault, aggregate s id = (.error fault, s) := by
  unfold aggregate
  dsimp only
  split
  · next function column hchildren =>
    split
    · next hname => exact absurd hchildren (h function column hname).1
    · exact ⟨_, rfl⟩
  · next function column label hchildren =>
    split
    · next hname => exact absurd hchildren ((h function column hname).2 label)
    · exact ⟨_, rfl⟩
  · exact ⟨_, rfl⟩

/-- The edits that put the column under the function. -/
def callOfEdits (s : Store) (ids : List WordId) (name : String) (column : WordId) : List Edit :=
  ids.map .detach ++ ((s.detachAll ids).plantEdits (.call "group" [(s.detachAll ids).read column]) ++
    (groupingOf s ids column).2.adoptEdits name none [column])

/-- The edits of `aggregate(f,column,alias)`.  Without an alias the call gets
the anonymous one. -/
def aggregateEdits (s : Store) (id : WordId) : List Edit :=
  match s.children id with
  | [function, column] =>
    if s.isLeaf function && !s.isQuoted function then
      let (call, s') := callOf s [function, column] (s.token function) column
      callOfEdits s [function, column] (s.token function) column ++ labelEdits s' call
    else []
  | [function, column, label] =>
    if s.isLeaf function && !s.isQuoted function then
      let (call, s') := callOf s [function, column, label] (s.token function) column
      callOfEdits s [function, column, label] (s.token function) column ++
        s'.adoptEdits "as" none [call, label]
    else []
  | _ => []

/-- The edits of `countascol(column,v₁,…)`. -/
def countAsColumnsEdits (s : Store) (id : WordId) : List Edit :=
  match s.children id with
  | column :: value :: values =>
    let counts := (value :: values).map fun v => countOf (s.read column) (s.read v)
    let s₁ := (s.plantAll counts).2
    let s₂ := s₁.detachAll (column :: value :: values)
    s.plantAllEdits counts ++ ((column :: value :: values).map .detach ++
      s₂.adoptEdits "in" none (column :: value :: values))
  | _ => []

/-- The edits of a claim on the selection. -/
def claimEdits (s : Store) (id : WordId) : List Edit :=
  let word := Text.lower (s.token id)
  if word ∈ ["count", "sum", "min", "max"] then
    if s.isLeaf id then [] else labelEdits s id
  else if word = "aggregate" ∨ word = "function" then aggregateEdits s id
  else if word = "countascol" then countAsColumnsEdits s id
  else []

/-- All the words that are contributed. -/
def Claim.ids (claim : Claim) : List WordId :=
  claim.terms ++ claim.grouping.toList ++ claim.filter.toList

/-- The edits are allowed, and what is contributed is loose and distinct. -/
structure Contributed (s₀ s : Store) (edits : List Edit) (result : Except Fault Claim × Store) :
    Prop where
  edited : Edited s₀.size s edits result.2
  nodup : ∀ claim, result.1 = .ok claim → claim.ids.Nodup
  loose : ∀ claim, result.1 = .ok claim → ∀ x ∈ claim.ids, Loose s₀.size result.2 x

theorem Contributed.error (s₀ s : Store) (fault : Fault) :
    Contributed s₀ s [] (.error fault, s) :=
  ⟨.nil s, (fun _ h => by cases h), fun _ h => by cases h⟩

theorem Contributed.ok {s₀ s s' : Store} {edits : List Edit} {claim : Claim}
    (hedited : Edited s₀.size s edits s') (hnodup : claim.ids.Nodup)
    (hloose : ∀ x ∈ claim.ids, Loose s₀.size s' x) :
    Contributed s₀ s edits (.ok claim, s') := by
  refine ⟨hedited, fun claim' h => ?_, fun claim' h => ?_⟩
  · rwa [← Except.ok.inj h]
  · rwa [← Except.ok.inj h]

/-- A column and the grouping by it. -/
theorem Contributed.grouped {s₀ s s' : Store} {edits : List Edit} {named grouping : WordId}
    (hedited : Edited s₀.size s edits s') (hnamed : Loose s₀.size s' named)
    (hgrouping : Loose s₀.size s' grouping ∧ grouping ≠ named) :
    Contributed s₀ s edits (.ok ⟨[named], some grouping, none⟩, s') := by
  refine .ok hedited ?_ ?_
  · simpa [Claim.ids] using hgrouping.2.symm
  · simpa [Claim.ids] using ⟨hnamed, hgrouping.1⟩

/-- A loose word is named, beside other loose words. -/
theorem edited_label (h : s₀.Over s) {id : WordId} (hid : Loose s₀.size s id) :
    Edited s₀.size s (labelEdits s id) (labelAnonymously s id).2 ∧
      Loose s₀.size (labelAnonymously s id).2 (labelAnonymously s id).1 ∧
      ∀ x, Loose s₀.size s x → x ≠ id →
        Loose s₀.size (labelAnonymously s id).2 x ∧ x ≠ (labelAnonymously s id).1 := by
  obtain ⟨hplant, hlabel, hbeside⟩ := Store.edited_planted h anonymousLeaf
  obtain ⟨hid', hne⟩ := hbeside id hid
  obtain ⟨hcall, hnamed, hothers⟩ :=
    Store.edited_call (hplant.over h) "as" [id, (s.plant anonymousLeaf).1] (by simpa using hne)
      (by simpa using ⟨hid', hlabel⟩)
  refine ⟨hplant.append hcall, hnamed, fun x hx hxid => ?_⟩
  obtain ⟨hx', hxlabel⟩ := hbeside x hx
  exact hothers x hx' (by simpa using ⟨hxid, hxlabel⟩)

/-- The grouping is added beside the arguments of an aggregate, which are detached first. -/
theorem edited_groupingOf (h : s₀.Over s) {id : WordId} (hid : Loose s₀.size s id)
    (column : WordId) :
    Edited s₀.size s ((s.children id).map .detach ++ (s.detachAll (s.children id)).plantEdits
        (.call "group" [(s.detachAll (s.children id)).read column]))
      (groupingOf s (s.children id) column).2 ∧
      Loose s₀.size (groupingOf s (s.children id) column).2
        (groupingOf s (s.children id) column).1 ∧
      ∀ x ∈ s.children id, Loose s₀.size (groupingOf s (s.children id) column).2 x ∧
        x ≠ (groupingOf s (s.children id) column).1 := by
  obtain ⟨hdetach, hover, hchildren, _⟩ := Store.edited_detached h (h.children_within hid)
  obtain ⟨hplant, hgrouping, hbeside⟩ := Store.edited_planted hover
    (.call "group" [(s.detachAll (s.children id)).read column])
  exact ⟨hdetach.append hplant, hgrouping, fun x hx => hbeside x (hchildren x hx)⟩

/-- The column of an aggregate is put under the function, after the grouping has
been made from it. -/
theorem edited_callOf (h : s₀.Over s) {id column : WordId} {ids : List WordId}
    (hid : Loose s₀.size s id) (hids : s.children id = ids) (hcolumn : column ∈ ids)
    (name : String) :
    Edited s₀.size s (callOfEdits s ids name column) (callOf s ids name column).2 ∧
      Loose s₀.size (callOf s ids name column).2 (callOf s ids name column).1 ∧
      (Loose s₀.size (callOf s ids name column).2 (groupingOf s ids column).1 ∧
        (groupingOf s ids column).1 ≠ (callOf s ids name column).1) ∧
      ∀ x ∈ ids, x ≠ column → Loose s₀.size (callOf s ids name column).2 x ∧
        x ≠ (callOf s ids name column).1 ∧ x ≠ (groupingOf s ids column).1 := by
  subst hids
  obtain ⟨hedited, hgrouping, hchildren⟩ := edited_groupingOf h hid column
  obtain ⟨hcolumn', hne⟩ := hchildren column hcolumn
  obtain ⟨hcall, hcalled, hothers⟩ := Store.edited_call (hedited.over h) name [column]
    (by simp) (by simpa using hcolumn')
  refine ⟨?_, hcalled, hothers _ hgrouping (by simpa using hne.symm), fun x hx hxcolumn => ?_⟩
  · have hall := hedited.append hcall
    rw [List.append_assoc] at hall
    exact hall
  · obtain ⟨hx', hxgrouping⟩ := hchildren x hx
    obtain ⟨hx'', hxcall⟩ := hothers x hx' (by simpa using hxcolumn)
    exact ⟨hx'', hxcall, hxgrouping⟩

/-- An aggregate gives a column and its grouping by allowed edits. -/
theorem contributed_aggregate (h : s₀.Over s) {id : WordId} (hid : Loose s₀.size s id) :
    Contributed s₀ s (aggregateEdits s id) (aggregate s id) := by
  have hnodup := h.wellFormed.nodup id
  -- arguments of any other form are refused before anything is edited
  have hfault : (∀ function column, (s.isLeaf function && !s.isQuoted function) = true →
      s.children id ≠ [function, column] ∧ ∀ label, s.children id ≠ [function, column, label]) →
      Contributed s₀ s [] (aggregate s id) := by
    intro hnone
    obtain ⟨fault, hfault⟩ := aggregate_error hnone
    rw [hfault]
    exact .error s₀ s fault
  unfold aggregateEdits
  split
  · next function column hchildren =>
    split
    · next hname =>
      obtain ⟨hedited, hcall, ⟨hgrouping, hne⟩, _⟩ := edited_callOf h hid hchildren
        (show column ∈ _ by simp) (s.token function)
      obtain ⟨hlabel, hnamed, hothers⟩ := edited_label (hedited.over h) hcall
      rw [aggregate_pair hchildren hname]
      exact .grouped (hedited.append hlabel) hnamed (hothers _ hgrouping hne)
    · next hname =>
      refine hfault fun f c hf => ⟨fun heq => ?_, fun label heq => ?_⟩
      · rw [hchildren] at heq
        cases heq
        exact hname hf
      · rw [hchildren] at heq
        cases heq
  · next function column label hchildren =>
    split
    · next hname =>
      have hapart : label ≠ column := by
        rw [hchildren] at hnodup
        simp only [List.nodup_cons, List.mem_singleton] at hnodup
        exact Ne.symm hnodup.2.1
      obtain ⟨hedited, hcall, ⟨hgrouping, hne⟩, hothers⟩ := edited_callOf h hid hchildren
        (show column ∈ _ by simp) (s.token function)
      obtain ⟨hlabel, hlabelcall, hlabelgrouping⟩ := hothers label (by simp) hapart
      obtain ⟨hlast, hnamed, hbeside⟩ := Store.edited_call (hedited.over h) "as" [_, label]
        (by simpa using hlabelcall.symm) (by simpa using ⟨hcall, hlabel⟩)
      rw [aggregate_triple hchildren hname]
      exact .grouped (hedited.append hlast) hnamed
        (hbeside _ hgrouping (by simpa using ⟨hne, hlabelgrouping.symm⟩))
    · next hname =>
      refine hfault fun f c hf => ⟨fun heq => ?_, fun label heq => ?_⟩
      · rw [hchildren] at heq
        cases heq
      · rw [hchildren] at heq
        cases heq
        exact hname hf
  · next hpair htriple =>
    exact hfault fun f c _ => ⟨hpair f c, fun label => htriple f c label⟩

/-- A count of values gives a column for each of them and a filter. -/
theorem contributed_countAsColumns (h : s₀.Over s) {id : WordId} (hid : Loose s₀.size s id) :
    Contributed s₀ s (countAsColumnsEdits s id) (countAsColumns s id) := by
  have hnodup := h.wellFormed.nodup id
  have hwithin := h.children_within hid
  rcases hchildren : s.children id with _ | ⟨column, _ | ⟨value, values⟩⟩ <;>
    simp only [countAsColumns, countAsColumnsEdits, hchildren]
  case cons.cons =>
    rw [hchildren] at hnodup hwithin
    generalize (value :: values).map (fun v => countOf (s.read column) (s.read v)) = counts
    have hplant := Store.edited_plantAll counts h.wellFormed h.extension.size_le
    have hext := s.extends_plantAll counts
    obtain ⟨hdistinct, hterms⟩ := Store.loose_plantAll h.extension.size_le counts
    obtain ⟨hdetach, hover₂, hloose, hkept⟩ := Store.edited_detached (hplant.over h)
      fun x hx => ⟨(hwithin x hx).1, Nat.lt_of_lt_of_le (hwithin x hx).2 hext.size_le⟩
    obtain ⟨hcall, hfilter, hothers⟩ := Store.edited_call hover₂ "in" _ hnodup hloose
    -- the counts are new, so none of them is an argument of the term
    have hbeside : ∀ x ∈ (s.plantAll counts).1, x ∉ column :: value :: values := by
      intro x hx hmem
      have hfresh := ((Store.loose_plantAll (Nat.le_refl s.size) counts).2 x hx).le
      exact absurd hfresh (Nat.not_le_of_lt (hwithin x hmem).2)
    have hterms' := fun x hx => hothers x (hkept x (hterms x hx)) (hbeside x hx)
    refine .ok (hplant.append (hdetach.append hcall)) ?_ ?_
    · simp only [Claim.ids, Option.toList_none, Option.toList_some, List.append_nil]
      refine List.nodup_append.2 ⟨hdistinct, by simp, fun x hx y hy => ?_⟩
      rw [List.mem_singleton.1 hy]
      exact (hterms' x hx).2
    · simp only [Claim.ids, Option.toList_none, Option.toList_some, List.append_nil,
        List.mem_append, List.mem_singleton]
      rintro x (hx | rfl)
      · exact (hterms' x hx).1
      · exact hfilter
  all_goals exact .error s₀ s _

/-- A claim on the selection makes allowed edits only, and what it contributes
is loose and distinct. -/
theorem contributed_claim (h : s₀.Over s) {id : WordId} (hid : Loose s₀.size s id) :
    Contributed s₀ s (claimEdits s id) (claim s id) := by
  have honly : ∀ {s' : Store} {named : WordId} {edits : List Edit}, Edited s₀.size s edits s' →
      Loose s₀.size s' named → Contributed s₀ s edits (.ok (.only named), s') := by
    intro s' named edits hedited hnamed
    exact .ok hedited (by simp [Claim.ids, Claim.only]) (by simpa [Claim.ids, Claim.only] using hnamed)
  unfold claim claimEdits
  dsimp only
  split
  · split
    · exact .error s₀ s _
    · obtain ⟨hedited, hnamed, _⟩ := edited_label h hid
      exact honly hedited hnamed
  · split
    · exact contributed_aggregate h hid
    · split
      · exact contributed_countAsColumns h hid
      · split
        · exact .error s₀ s _
        · exact honly (.nil s) hid

end Selection
end ResourceQuery

import ResourceQuery.Proofs.Term.Induction
import ResourceQuery.Term.Store

set_option autoImplicit false

/-!
# Terms in a store: plots

A plot is a term together with the ids that its words have in a store.  A store
*shows* a plot when following the ids from its root meets just the words of the
plot.  What a store reads at an id, and the order in which it goes through the
words of a term, are then those of the plot; and whatever leaves the words of a
plot alone leaves it shown.

Proofs about the store reason about plots in the place of links: a plot is an
inductive type, so they are inductions over it, where the store itself has only
ids.
-/

namespace ResourceQuery

/-- A term with the ids of its words. -/
inductive Plot where
  | node (id : WordId) (token : String) (quote : Option Quote) (children : List Plot)
  deriving Repr, Inhabited

namespace Plot

/-- The id of the word at the root. -/
def id : Plot → WordId
  | node id _ _ _ => id

/-- The plots of the arguments. -/
def children : Plot → List Plot
  | node _ _ _ children => children

mutual

/-- The value of a plot, from the plot and the values of its arguments. -/
def fold {α : Type} (f : Plot → List α → α) : Plot → α
  | node id token quote children => f (node id token quote children) (foldAll f children)

/-- The values of several plots. -/
def foldAll {α : Type} (f : Plot → List α → α) : List Plot → List α
  | [] => []
  | P :: Ps => fold f P :: foldAll f Ps

end

theorem foldAll_eq_map {α : Type} (f : Plot → List α → α) (Ps : List Plot) :
    foldAll f Ps = Ps.map (fold f) := by
  induction Ps with
  | nil => rw [foldAll, List.map_nil]
  | cons P Ps ih => rw [foldAll, ih, List.map_cons]

theorem fold_eq {α : Type} (f : Plot → List α → α) (P : Plot) :
    fold f P = f P (P.children.map (fold f)) := by
  obtain ⟨id, token, quote, children⟩ := P
  rw [fold, foldAll_eq_map]
  rfl

/-- The term that is laid out. -/
def term : Plot → Term := fold fun
  | node _ token quote _, below => .node token quote below

/-- The ids of all words, each before those of its arguments. -/
def ids : Plot → List WordId := fold fun P below => P.id :: below.flatten

/-- The ids of the words under the root. -/
def inner (P : Plot) : List WordId := P.children.flatMap ids

theorem term_node (id : WordId) (token : String) (quote : Option Quote) (children : List Plot) :
    (node id token quote children).term = .node token quote (children.map term) := by
  rw [term, fold_eq]
  rfl

theorem ids_node (id : WordId) (token : String) (quote : Option Quote) (children : List Plot) :
    (node id token quote children).ids = id :: children.flatMap ids := by
  rw [ids, fold_eq, List.flatMap_def]
  rfl

theorem ids_eq (P : Plot) : P.ids = P.id :: P.inner := by
  obtain ⟨id, token, quote, children⟩ := P
  exact ids_node id token quote children

theorem id_mem_ids (P : Plot) : P.id ∈ P.ids := by
  rw [ids_eq]
  exact List.mem_cons_self

/-- The ids of an argument are below the root. -/
theorem mem_inner {P Q : Plot} (hQ : Q ∈ P.children) {x : WordId} (hx : x ∈ Q.ids) :
    x ∈ P.inner :=
  List.mem_flatMap.2 ⟨Q, hQ, hx⟩

theorem mem_ids_of_mem_inner (P : Plot) {x : WordId} (hx : x ∈ P.inner) : x ∈ P.ids := by
  rw [ids_eq]
  exact List.mem_cons_of_mem _ hx

mutual

theorem induction {motive : Plot → Prop}
    (node : ∀ id token quote children, (∀ Q ∈ children, motive Q) →
      motive (.node id token quote children)) : ∀ P, motive P
  | .node id token quote children =>
    node id token quote children (inductionAll node children)

theorem inductionAll {motive : Plot → Prop}
    (node : ∀ id token quote children, (∀ Q ∈ children, motive Q) →
      motive (.node id token quote children)) : ∀ Ps : List Plot, ∀ P ∈ Ps, motive P
  | [] => fun _ h => absurd h List.not_mem_nil
  | P :: Ps => by
    intro Q h
    have hP := induction node P
    have hPs := inductionAll node Ps
    rcases List.mem_cons.1 h with rfl | h
    · exact hP
    · exact hPs Q h

end

/-! ## Plots within plots -/

/-- The plot is the other one, one of its arguments, one of theirs, and so on. -/
inductive Under : Plot → Plot → Prop where
  | refl (P : Plot) : Under P P
  | child {P Q R : Plot} (hR : R ∈ P.children) (h : Under Q R) : Under Q P

theorem mem_ids_iff {P : Plot} {x : WordId} : x ∈ P.ids ↔ ∃ Q : Plot, Q.Under P ∧ Q.id = x := by
  constructor
  · intro hx
    induction P using Plot.induction with
    | node id token quote children ih =>
      rw [ids_node] at hx
      rcases List.mem_cons.1 hx with rfl | hx
      · exact ⟨_, .refl _, rfl⟩
      · obtain ⟨R, hR, hx⟩ := List.mem_flatMap.1 hx
        obtain ⟨Q, hQ, rfl⟩ := ih R hR hx
        exact ⟨Q, .child hR hQ, rfl⟩
  · rintro ⟨Q, hQ, rfl⟩
    induction hQ with
    | refl P => exact P.id_mem_ids
    | child hR _ ih => exact mem_ids_of_mem_inner _ (mem_inner hR ih)

theorem Under.ids_subset {P Q : Plot} (h : Q.Under P) : Q.ids ⊆ P.ids := by
  induction h with
  | refl P => exact List.Subset.refl _
  | @child P Q R hR _ ih => exact fun x hx => mem_ids_of_mem_inner P (mem_inner hR (ih hx))

/-- A plot within another is an argument of a third one there, unless it is the whole. -/
theorem Under.eq_or_child {P Q : Plot} (h : Q.Under P) :
    Q = P ∨ ∃ R : Plot, R.Under P ∧ Q ∈ R.children := by
  induction h with
  | refl P => exact .inl rfl
  | @child P Q R hR _ ih =>
    rcases ih with rfl | ⟨S, hS, hQ⟩
    · exact .inr ⟨P, .refl P, hR⟩
    · exact .inr ⟨S, .child hR hS, hQ⟩

theorem children_term (P : Plot) : P.term.children = P.children.map term := by
  obtain ⟨id, token, quote, children⟩ := P
  rw [term_node]
  rfl

theorem mem_subterms_iff {P : Plot} {t : Term} :
    t ∈ P.term.subterms ↔ ∃ Q : Plot, Q.Under P ∧ Q.term = t := by
  constructor
  · intro ht
    induction P using Plot.induction with
    | node id token quote children ih =>
      rcases Term.mem_subterms.1 ht with rfl | ⟨child, hchild, ht⟩
      · exact ⟨_, .refl _, rfl⟩
      · rw [children_term] at hchild
        obtain ⟨R, hR, rfl⟩ := List.mem_map.1 hchild
        obtain ⟨Q, hQ, rfl⟩ := ih R hR ht
        exact ⟨Q, .child hR hQ, rfl⟩
  · rintro ⟨Q, hQ, rfl⟩
    induction hQ with
    | refl P => exact P.term.mem_subterms_self
    | @child P Q R hR _ ih =>
      refine Term.mem_subterms_of_child ?_ ih
      rw [children_term]
      exact List.mem_map_of_mem hR

/-! ## Distinct ids -/

/-- The ids of a plot with distinct ids: the root is not below itself, and those
of different arguments differ. -/
theorem nodup_node {id : WordId} {token : String} {quote : Option Quote} {children : List Plot} :
    (node id token quote children).ids.Nodup ↔
      id ∉ children.flatMap ids ∧ (children.flatMap ids).Nodup := by
  rw [ids_node, List.nodup_cons]

theorem nodup_of_mem {P Q : Plot} (h : P.ids.Nodup) (hQ : Q ∈ P.children) : Q.ids.Nodup := by
  rw [ids_eq, List.nodup_cons] at h
  exact (List.pairwise_flatMap.1 h.2).1 Q hQ

theorem Under.nodup {P Q : Plot} (hQ : Q.Under P) (h : P.ids.Nodup) : Q.ids.Nodup := by
  induction hQ with
  | refl P => exact h
  | child hR _ ih => exact ih (nodup_of_mem h hR)

/-- An argument has fewer words than the whole. -/
theorem length_ids_lt {P Q : Plot} (hQ : Q ∈ P.children) : Q.ids.length < P.ids.length := by
  obtain ⟨before, after, hsplit⟩ := List.append_of_mem hQ
  rw [ids_eq P, List.length_cons, inner, hsplit]
  simp only [List.flatMap_append, List.flatMap_cons, List.length_append]
  omega

end Plot

/-! ## Plots that a store shows -/

/-- Following the ids from the root meets the words of the plot. -/
inductive Store.Shows (s : Store) : Plot → Prop where
  | node {id : WordId} {token : String} {quote : Option Quote} {children : List Plot}
      (hid : id.index < s.size) (htoken : s.token id = token) (hquote : s.quote id = quote)
      (hchildren : s.children id = children.map Plot.id) (h : ∀ Q ∈ children, Shows s Q) :
      Shows s (.node id token quote children)

namespace Store

variable {s s' : Store} {P : Plot}

theorem Shows.child {Q : Plot} (h : s.Shows P) (hQ : Q ∈ P.children) : s.Shows Q := by
  cases h with
  | node _ _ _ _ hall => exact hall Q hQ

theorem Shows.under {Q : Plot} (h : s.Shows P) (hQ : Q.Under P) : s.Shows Q := by
  induction hQ with
  | refl P => exact h
  | child hR _ ih => exact ih (h.child hR)

theorem Shows.children_eq (h : s.Shows P) : s.children P.id = P.children.map Plot.id := by
  cases h with
  | node _ _ _ hchildren _ => exact hchildren

theorem Shows.token_eq (h : s.Shows P) : s.token P.id = P.term.token := by
  cases h with
  | node _ htoken _ _ _ =>
    rw [Plot.term_node]
    exact htoken

theorem Shows.quote_eq (h : s.Shows P) : s.quote P.id = P.term.quote := by
  cases h with
  | node _ _ hquote _ _ =>
    rw [Plot.term_node]
    exact hquote

theorem Shows.hasToken_eq (h : s.Shows P) (word : String) :
    s.hasToken P.id word = P.term.hasToken word := by
  cases h with
  | node _ htoken hquote _ _ =>
    rw [Plot.term_node]
    simp only [hasToken, Term.hasToken, isQuoted, Term.isQuoted, Plot.id, htoken, hquote,
      Term.token_node, Term.quote_node]

theorem Shows.id_lt (h : s.Shows P) : P.id.index < s.size := by
  cases h with
  | node hid _ _ _ _ => exact hid

theorem Shows.ids_lt (h : s.Shows P) : ∀ x ∈ P.ids, x.index < s.size := by
  induction h with
  | @node id token quote children hid _ _ _ _ ih =>
    intro x hx
    rw [Plot.ids_node] at hx
    rcases List.mem_cons.1 hx with rfl | hx
    · exact hid
    · obtain ⟨Q, hQ, hx⟩ := List.mem_flatMap.1 hx
      exact ih Q hQ x hx

/-- With enough depth, the term is read whole. -/
theorem Shows.readTo_eq (h : s.Shows P) :
    ∀ depth, P.ids.length ≤ depth → s.readTo depth P.id = P.term := by
  induction h with
  | @node id token quote children _ htoken hquote hchildren _ ih =>
    intro depth hdepth
    have hless : ∀ Q ∈ children, Q.ids.length < (Plot.node id token quote children).ids.length :=
      fun Q hQ => Plot.length_ids_lt hQ
    cases depth with
    | zero =>
      rw [Plot.ids_node] at hdepth
      cases hdepth
    | succ depth =>
      rw [Plot.id, readTo, htoken, hquote, hchildren, Plot.term_node, List.map_map]
      congr 1
      refine List.map_congr_left fun Q hQ => ih Q hQ depth ?_
      have := hless Q hQ
      omega

/-- With enough depth, all words of the term are met. -/
theorem Shows.preorderTo_eq (h : s.Shows P) :
    ∀ depth, P.ids.length ≤ depth → s.preorderTo depth P.id = P.ids := by
  induction h with
  | @node id token quote children _ _ _ hchildren _ ih =>
    intro depth hdepth
    have hless : ∀ Q ∈ children, Q.ids.length < (Plot.node id token quote children).ids.length :=
      fun Q hQ => Plot.length_ids_lt hQ
    cases depth with
    | zero =>
      rw [Plot.ids_node] at hdepth
      cases hdepth
    | succ depth =>
      rw [Plot.id, preorderTo, hchildren, Plot.ids_node, List.flatMap_map, List.flatMap_def,
        List.flatMap_def]
      congr 2
      refine List.map_congr_left fun Q hQ => ih Q hQ depth ?_
      have := hless Q hQ
      omega

/-- Distinct ids of a store are at most as many as its words. -/
theorem length_le_size {ids : List WordId} (hnodup : ids.Nodup)
    (hlt : ∀ x ∈ ids, x.index < s.size) : ids.length ≤ s.size := by
  have hsub : ids ⊆ (List.range s.size).map WordId.mk := by
    intro x hx
    exact List.mem_map.2 ⟨x.index, List.mem_range.2 (hlt x hx), rfl⟩
  have hle := hnodup.length_le_of_subset hsub
  rwa [List.length_map, List.length_range] at hle

/-- A term that is laid out on distinct ids is what is read at its root. -/
theorem Shows.read_eq (h : s.Shows P) (hnodup : P.ids.Nodup) : s.read P.id = P.term :=
  h.readTo_eq s.size (length_le_size hnodup h.ids_lt)

theorem Shows.preorder_eq (h : s.Shows P) (hnodup : P.ids.Nodup) : s.preorder P.id = P.ids :=
  h.preorderTo_eq s.size (length_le_size hnodup h.ids_lt)

/-! ## What leaves a plot shown -/

/-- The word at the id is the same in both stores, up to the word above it. -/
structure Agrees (s s' : Store) (x : WordId) : Prop where
  token_eq : s'.token x = s.token x
  quote_eq : s'.quote x = s.quote x
  children_eq : s'.children x = s.children x

theorem Agrees.of_word {x : WordId} (h : s'.word x = s.word x) : s.Agrees s' x := by
  refine ⟨?_, ?_, ?_⟩
  · rw [token, h, token]
  · rw [quote, h, quote]
  · rw [children, h, children]

theorem Agrees.trans {s s' s'' : Store} {x : WordId} (h : s.Agrees s' x) (h' : s'.Agrees s'' x) :
    s.Agrees s'' x :=
  ⟨h'.token_eq.trans h.token_eq, h'.quote_eq.trans h.quote_eq,
    h'.children_eq.trans h.children_eq⟩

/-- A store that agrees on the words of a plot shows it too, whatever else has
changed. -/
theorem Shows.of_agrees (h : s.Shows P) (hsize : s.size ≤ s'.size)
    (hagrees : ∀ x ∈ P.ids, s.Agrees s' x) : s'.Shows P := by
  induction h with
  | @node id token quote children hid htoken hquote hchildren _ ih =>
    rw [Plot.ids_node] at hagrees
    have hroot := hagrees id List.mem_cons_self
    refine .node (by omega) (by rw [hroot.token_eq, htoken]) (by rw [hroot.quote_eq, hquote])
      (by rw [hroot.children_eq, hchildren]) fun Q hQ => ih Q hQ fun x hx => ?_
    exact hagrees x (List.mem_cons_of_mem id (List.mem_flatMap.2 ⟨Q, hQ, hx⟩))

end Store
end ResourceQuery

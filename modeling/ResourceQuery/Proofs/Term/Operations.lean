import ResourceQuery.Proofs.Fragment.Planting

set_option autoImplicit false

/-!
# Terms in a store: operations

The operations on a store, each with the edits that it makes, in order.  An operation is
*admissible* when the words that it is given are in order; then so are the arguments of all
its edits.  Adding a copy of a term, or reading a fragment, is always admissible, whether the
fragment is at fault or not.

There is one operation for each way in which a store can be changed: adding,
renaming, moving, detaching and replacing words, copying terms, and reading
fragments.
-/

namespace ResourceQuery

/-! ## Operations -/

/-- What can be done to a store. -/
inductive Operation where
  | leaf (token : String) (quote : Option Quote)
  | call (token : String) (children : List WordId)
  | setToken (id : WordId) (token : String)
  | pushChild (parent child : WordId)
  | insertChild (parent : WordId) (index : Nat) (child : WordId)
  | detach (id : WordId)
  | replace (old new : WordId)
  | graft (source : Store) (id : WordId)
  | duplicate (id : WordId)
  | parse (fragment : String)
  deriving DecidableEq, Repr

namespace Operation

/-- The store after the operation. -/
def apply (s : Store) : Operation → Store
  | leaf token quote => (s.leaf token quote).2
  | call token children => (s.call token children).2
  | setToken id token => s.setToken id token
  | pushChild parent child => s.pushChild parent child
  | insertChild parent index child => s.insertChild parent index child
  | detach id => s.detach id
  | replace old new => (s.replace old new).2
  | graft source id => (s.graft source id).2
  | duplicate id => (s.duplicate id).2
  | parse fragment => (s.parse fragment).2

/-- The store after the operations. -/
def applyAll (s : Store) (operations : List Operation) : Store := operations.foldl apply s

/-- The words that the operation is given are in order: what is put under a word
is a word of the store, no argument of another, and not above its new place,
which exists; and what a word gives way to is not above the place of that
word. -/
def Admissible (s : Store) : Operation → Prop
  | leaf _ _ | setToken _ _ | detach _ | graft _ _ | duplicate _ | parse _ => True
  | call _ children =>
    children.Nodup ∧ ∀ c ∈ children, c.index < s.size ∧ s.parent c = none
  | pushChild parent child =>
    parent.index < s.size ∧ child.index < s.size ∧ s.parent child = none ∧
      s.isAncestor child parent = false
  | insertChild parent index child =>
    parent.index < s.size ∧ child.index < s.size ∧ s.parent child = none ∧
      s.isAncestor child parent = false ∧ index ≤ (s.children parent).length
  | replace old new =>
    new.index < s.size ∧ ∀ p, s.parent old = some p → s.isAncestor new p = false

/-- Each operation is admissible where it is done. -/
def AllAdmissible : Store → List Operation → Prop
  | _, [] => True
  | s, operation :: operations =>
    operation.Admissible s ∧ AllAdmissible (operation.apply s) operations

/-- The edits that the operation makes. -/
def edits (s : Store) : Operation → List Edit
  | leaf token quote => [.leaf token quote]
  | call token children => s.adoptEdits token none children
  | setToken id token => [.setToken id token]
  | pushChild parent child => [.insert parent (s.children parent).length child]
  | insertChild parent index child => [.insert parent index child]
  | detach id => [.detach id]
  | replace old new => [.replace old new]
  | graft source id => s.plantEdits (source.read id)
  | duplicate id => s.plantEdits (s.read id)
  | parse fragment => s.parseEdits fragment

/-- An admissible operation makes allowed edits only. -/
theorem Admissible.edited {s : Store} (hs : s.WellFormed) {operation : Operation}
    (h : operation.Admissible s) : s.Edited 0 (operation.edits s) (operation.apply s) := by
  have hzero : 0 ≤ s.size := Nat.zero_le _
  cases operation with
  | leaf token quote => exact .one trivial trivial
  | call token children =>
    obtain ⟨hnodup, hchildren⟩ := h
    exact Store.edited_adopt hs hzero token none hnodup fun c hc =>
      ⟨Nat.zero_le _, (hchildren c hc).1, (hchildren c hc).2⟩
  | setToken id token => exact .one trivial (Nat.zero_le _)
  | pushChild parent child =>
    obtain ⟨hp, hc, hroot, habove⟩ := h
    exact .one ⟨hp, hc, hroot, habove, Nat.le_refl _⟩ ⟨Nat.zero_le _, Nat.zero_le _⟩
  | insertChild parent index child => exact .one h ⟨Nat.zero_le _, Nat.zero_le _⟩
  | detach id => exact .one trivial (Nat.zero_le _)
  | replace old new => exact .one h ⟨Nat.zero_le _, Nat.zero_le _⟩
  | graft source id => exact Store.edited_plant _ hs hzero
  | duplicate id => exact Store.edited_plant _ hs hzero
  | parse fragment => exact Store.edited_parse hs hzero fragment

/-- Admissible operations keep a store well-formed. -/
theorem AllAdmissible.wellFormed {operations : List Operation} :
    ∀ {s : Store}, s.WellFormed → AllAdmissible s operations →
      (applyAll s operations).WellFormed := by
  induction operations with
  | nil =>
    intro s hs _
    exact hs
  | cons operation operations ih =>
    intro s hs h
    have hedited := h.1.edited hs
    have happlied := hedited.allAllowed.wellFormed hs
    rw [hedited.applyAll_eq] at happlied
    exact ih happlied h.2

end Operation
end ResourceQuery

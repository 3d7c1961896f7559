import ResourceQuery.Proofs.Outcome
import ResourceQuery.Statement.Build

set_option autoImplicit false

/-!
# Statements: runs of the compiler

How a step of compilation comes to a result: one equivalence for each way in
which steps are put together.  Proofs about the compilers take a run apart with
these and never look into the monad.

Runs for lists are given by `Each`, from which facts about all elements are
gathered by `Each.collect` or handed on from one state to the next by
`Each.chain`.
-/

namespace ResourceQuery.Build

variable {σ α β : Type}

/-- A step that does nothing. -/
theorem pure_ok_iff {p p' : Progress σ} {a b : α} :
    (pure a : Build σ α) p = .ok (b, p') ↔ a = b ∧ p = p' := by
  have hpure : (pure a : Build σ α) p = .ok (a, p) := rfl
  rw [hpure, Except.ok.injEq, Prod.mk.injEq]

/-- Two steps in a row. -/
theorem bind_ok_iff {m : Build σ α} {k : α → Build σ β} {p p'' : Progress σ} {b : β} :
    (m >>= k) p = .ok (b, p'') ↔ ∃ a p', m p = .ok (a, p') ∧ k a p' = .ok (b, p'') := by
  constructor
  · intro h
    obtain ⟨⟨a, p'⟩, hm, hk⟩ := bind_eq_ok_iff.1 h
    exact ⟨a, p', hm, hk⟩
  · rintro ⟨a, p', hm, hk⟩
    exact bind_eq_ok_iff.2 ⟨(a, p'), hm, hk⟩

/-- A step that fails. -/
theorem throw_ne_ok {p p' : Progress σ} {a : α} {fault : Fault} :
    ¬(throw fault : Build σ α) p = .ok (a, p') := by
  intro h
  cases h

/-- A step that looks something up. -/
theorem lookup_ok_iff {x : Except Fault α} {p p' : Progress σ} {a : α} :
    (lookup x : Build σ α) p = .ok (a, p') ↔ x = .ok a ∧ p = p' := by
  cases x with
  | error fault =>
    constructor
    · intro h; cases h
    · rintro ⟨h, _⟩; cases h
  | ok b =>
    constructor
    · intro h; cases h; exact ⟨rfl, rfl⟩
    · rintro ⟨h, rfl⟩; cases h; rfl

/-- A look-up before a step. -/
theorem lookup_bind_ok_iff {x : Except Fault α} {k : α → Build σ β} {p p' : Progress σ} {b : β} :
    (lookup x >>= k) p = .ok (b, p') ↔ ∃ a, x = .ok a ∧ k a p = .ok (b, p') := by
  rw [bind_ok_iff]
  constructor
  · rintro ⟨a, q, hlookup, hk⟩
    obtain ⟨hx, rfl⟩ := lookup_ok_iff.1 hlookup
    exact ⟨a, hx, hk⟩
  · rintro ⟨a, hx, hk⟩
    exact ⟨a, p, lookup_ok_iff.2 ⟨hx, rfl⟩, hk⟩

/-- A step whose result is only put into another form. -/
theorem bind_pure_ok_iff {m : Build σ α} {f : α → β} {p p' : Progress σ} {b : β} :
    (m >>= fun a => pure (f a)) p = .ok (b, p') ↔ ∃ a, m p = .ok (a, p') ∧ f a = b := by
  rw [bind_ok_iff]
  constructor
  · rintro ⟨a, q, hm, h⟩
    obtain ⟨hb, rfl⟩ := pure_ok_iff.1 h
    exact ⟨a, hm, hb⟩
  · rintro ⟨a, hm, hb⟩
    exact ⟨a, p', hm, pure_ok_iff.2 ⟨hb, rfl⟩⟩

/-- A step that binds a value: the value goes behind those bound before, and its
place there, counted from one, is the number of its marker. -/
theorem bind_value_ok_iff {column : String} {value : Value} {p p' : Progress σ} {k : Nat} :
    (Build.bind column value : Build σ Nat) p = .ok (k, p') ↔
      k = p.values.length + 1 ∧ p' = { p with values := p.values ++ [(column, value)] } := by
  constructor
  · intro h; cases h; exact ⟨rfl, rfl⟩
  · rintro ⟨rfl, rfl⟩; rfl

/-- The runs of one step for the elements of a list, from left to right. -/
inductive Each (f : α → Build σ β) :
    List α → Progress σ → List β → Progress σ → Prop where
  | nil {p : Progress σ} : Each f [] p [] p
  | cons {x : α} {xs : List α} {p p' p'' : Progress σ} {y : β} {ys : List β}
      (hx : f x p = .ok (y, p')) (hxs : Each f xs p' ys p'') : Each f (x :: xs) p (y :: ys) p''

/-- A step for each element of a list comes to a result if its runs do, one
behind the other. -/
theorem mapM_ok_iff {f : α → Build σ β} {xs : List α} {p p' : Progress σ} {ys : List β} :
    xs.mapM f p = .ok (ys, p') ↔ Each f xs p ys p' := by
  induction xs generalizing p ys with
  | nil =>
    rw [List.mapM_nil, pure_ok_iff]
    constructor
    · rintro ⟨rfl, rfl⟩; exact .nil
    · intro h; cases h; exact ⟨rfl, rfl⟩
  | cons x xs ih =>
    rw [List.mapM_cons, bind_ok_iff]
    constructor
    · rintro ⟨y, q, hy, h⟩
      obtain ⟨rest, r, hrest, hys⟩ := bind_ok_iff.1 h
      obtain ⟨rfl, rfl⟩ := pure_ok_iff.1 hys
      exact .cons hy (ih.1 hrest)
    · intro h
      cases h with
      | cons hy hrest =>
        exact ⟨_, _, hy, bind_ok_iff.2 ⟨_, _, ih.2 hrest, pure_ok_iff.2 ⟨rfl, rfl⟩⟩⟩

/-- What the steps give together, from what each of them gives: `R` relates the
states around some steps to lists, and the lists of steps that follow one
another go one behind the other. -/
theorem Each.collect {γ δ : Type} {R : Progress σ → List γ → List δ → Progress σ → Prop}
    (hnil : ∀ p, R p [] [] p)
    (happend : ∀ {p p' p'' : Progress σ} {xs xs' : List γ} {ys ys' : List δ},
      R p xs ys p' → R p' xs' ys' p'' → R p (xs ++ xs') (ys ++ ys') p'')
    {f : α → Build σ β} {g : α → List γ} {k : β → List δ} {xs : List α} {ys : List β}
    {p p' : Progress σ} (h : Each f xs p ys p')
    (hstep : ∀ x ∈ xs, ∀ (p p' : Progress σ) (y : β), f x p = .ok (y, p') → R p (g x) (k y) p') :
    R p (xs.flatMap g) (ys.flatMap k) p' := by
  induction h with
  | nil => exact hnil _
  | @cons x xs p p' p'' y ys hx _ ih =>
    rw [List.flatMap_cons, List.flatMap_cons]
    exact happend (hstep x List.mem_cons_self p p' y hx)
      (ih fun x' hx' => hstep x' (List.mem_cons_of_mem x hx'))

/-- States that are related by every step are related by all of them. -/
theorem Each.chain {R : Progress σ → Progress σ → Prop} (hrefl : ∀ p, R p p)
    (htrans : ∀ {p p' p''}, R p p' → R p' p'' → R p p'') {f : α → Build σ β} {xs : List α}
    {ys : List β} {p p' : Progress σ} (h : Each f xs p ys p')
    (hstep : ∀ (x : α) (p p' : Progress σ) (y : β), f x p = .ok (y, p') → R p p') : R p p' := by
  induction h with
  | nil => exact hrefl _
  | cons hx _ ih => exact htrans (hstep _ _ _ _ hx) ih

/-- The runs for the images of elements. -/
theorem Each.of_map {γ : Type} {f : α → Build σ β} {g : γ → α} {xs : List γ} {p p' : Progress σ}
    {ys : List β} (h : Each f (xs.map g) p ys p') : Each (fun x => f (g x)) xs p ys p' := by
  induction xs generalizing p ys with
  | nil =>
    cases h
    exact .nil
  | cons x xs ih =>
    cases h with
    | cons hx hxs => exact .cons hx (ih hxs)

/-- One of the elements, with the runs before it and behind it. -/
theorem Each.of_append_cons {f : α → Build σ β} {xs xs' : List α} {x : α} :
    ∀ {p p' : Progress σ} {ys : List β}, Each f (xs ++ x :: xs') p ys p' →
      ∃ before y after q q', ys = before ++ y :: after ∧ Each f xs p before q ∧
        f x q = .ok (y, q') ∧ Each f xs' q' after p' := by
  induction xs with
  | nil =>
    intro p p' ys h
    cases h with
    | @cons _ _ _ q' _ y ys hx hrest => exact ⟨[], y, ys, p, q', rfl, .nil, hx, hrest⟩
  | cons x₀ xs ih =>
    intro p p' ys h
    cases h with
    | @cons _ _ _ p₁ _ y₀ ys h₀ hrest =>
      obtain ⟨before, y, after, q, q', rfl, hbefore, hx, hafter⟩ := ih hrest
      exact ⟨y₀ :: before, y, after, q, q', rfl, .cons h₀ hbefore, hx, hafter⟩

end ResourceQuery.Build

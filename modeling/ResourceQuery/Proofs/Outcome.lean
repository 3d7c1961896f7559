set_option autoImplicit false

/-!
# Outcomes

How a computation that may fail comes to a result.

One equivalence for each way in which computations are put together.  Proofs
take results apart with these and do not unfold the monad; `mapM` is gone
through here alone.
-/

namespace ResourceQuery

variable {ε α β : Type}

/-- Two computations in a row give a result when the first gives one from which
the second gives it. -/
theorem bind_eq_ok_iff {x : Except ε α} {f : α → Except ε β} {b : β} :
    x >>= f = .ok b ↔ ∃ a, x = .ok a ∧ f a = .ok b := by
  cases x with
  | error e => simp [bind, Except.bind]
  | ok a => simp [bind, Except.bind]

theorem ok_bind (a : α) (f : α → Except ε β) : (Except.ok a >>= f) = f a := rfl

theorem pure_eq_ok_iff {a b : α} : (pure a : Except ε α) = .ok b ↔ a = b := by
  simp [pure, Except.pure]

theorem map_eq_ok_iff {x : Except ε α} {f : α → β} {b : β} :
    f <$> x = .ok b ↔ ∃ a, x = .ok a ∧ f a = b := by
  cases x with
  | error e => simp [Functor.map, Except.map]
  | ok a => simp [Functor.map, Except.map]

theorem eq_ok_of_toOption {x : Except ε α} {a : α} (h : x.toOption = some a) : x = .ok a := by
  cases x with
  | error e => cases h
  | ok b => cases h; rfl

/-- Computations that come to the same results fail together. -/
theorem toOption_eq_of_ok_iff {x y : Except ε α} (h : ∀ a, x = .ok a ↔ y = .ok a) :
    x.toOption = y.toOption := by
  cases hy : y with
  | ok b => rw [(h b).2 hy]
  | error e =>
    cases hx : x with
    | ok a =>
      rw [(h a).1 hx] at hy
      cases hy
    | error e' => rfl

/-- A computation with a state, by its outcome. -/
theorem exists_of_fst_eq {x : α × β} {a : α} (h : x.1 = a) : ∃ b, x = (a, b) :=
  ⟨x.2, by rw [← h]⟩

/-! ## Several computations in a row -/

theorem mapM_cons_ok_iff {f : α → Except ε β} {x : α} {xs : List α} {ys : List β} :
    (x :: xs).mapM f = .ok ys ↔ ∃ y rest, f x = .ok y ∧ xs.mapM f = .ok rest ∧ ys = y :: rest := by
  rw [List.mapM_cons, bind_eq_ok_iff]
  simp only [bind_eq_ok_iff, pure_eq_ok_iff]
  constructor
  · rintro ⟨y, hy, rest, hrest, rfl⟩
    exact ⟨y, rest, hy, hrest, rfl⟩
  · rintro ⟨y, rest, hy, hrest, rfl⟩
    exact ⟨y, hy, rest, hrest, rfl⟩

/-- Computations for two lists in a row. -/
theorem mapM_append_ok_iff {f : α → Except ε β} {xs xs' : List α} {ys : List β} :
    (xs ++ xs').mapM f = .ok ys ↔
      ∃ zs zs', xs.mapM f = .ok zs ∧ xs'.mapM f = .ok zs' ∧ ys = zs ++ zs' := by
  rw [List.mapM_append, bind_eq_ok_iff]
  simp only [bind_eq_ok_iff, pure_eq_ok_iff]
  constructor
  · rintro ⟨zs, hzs, zs', hzs', rfl⟩
    exact ⟨zs, zs', hzs, hzs', rfl⟩
  · rintro ⟨zs, zs', hzs, hzs', rfl⟩
    exact ⟨zs, hzs, zs', hzs', rfl⟩

/-- What holds of every result of one computation holds of all results. -/
theorem forall_mem_of_mapM {f : α → Except ε β} {p : β → Prop}
    (hp : ∀ x y, f x = .ok y → p y) {xs : List α} :
    ∀ {ys : List β}, xs.mapM f = .ok ys → ∀ y ∈ ys, p y := by
  induction xs with
  | nil =>
    intro ys h
    rw [List.mapM_nil, pure_eq_ok_iff] at h
    subst h
    exact fun _ hy => absurd hy List.not_mem_nil
  | cons x xs ih =>
    intro ys h
    obtain ⟨y, rest, hy, hrest, rfl⟩ := mapM_cons_ok_iff.1 h
    intro z hz
    rcases List.mem_cons.1 hz with rfl | hz
    · exact hp x z hy
    · exact ih hrest z hz

/-- Every argument has a result when there are results. -/
theorem exists_of_mem_mapM {f : α → Except ε β} {xs : List α} :
    ∀ {ys : List β}, xs.mapM f = .ok ys → ∀ x ∈ xs, ∃ y, f x = .ok y := by
  induction xs with
  | nil => exact fun _ _ hx => absurd hx List.not_mem_nil
  | cons x xs ih =>
    intro ys h z hz
    obtain ⟨y, rest, hy, hrest, _⟩ := mapM_cons_ok_iff.1 h
    rcases List.mem_cons.1 hz with rfl | hz
    · exact ⟨y, hy⟩
    · exact ih hrest z hz

/-- There are results when every argument has one. -/
theorem exists_mapM_of_forall {f : α → Except ε β} {xs : List α}
    (h : ∀ x ∈ xs, ∃ y, f x = .ok y) : ∃ ys, xs.mapM f = .ok ys := by
  induction xs with
  | nil => exact ⟨[], List.mapM_nil⟩
  | cons x xs ih =>
    obtain ⟨y, hy⟩ := h x List.mem_cons_self
    obtain ⟨ys, hys⟩ := ih fun x' hx' => h x' (List.mem_cons_of_mem x hx')
    exact ⟨y :: ys, mapM_cons_ok_iff.2 ⟨y, ys, hy, hys, rfl⟩⟩

/-- Every result is that of an argument. -/
theorem exists_arg_of_mem_mapM {f : α → Except ε β} {xs : List α} :
    ∀ {ys : List β}, xs.mapM f = .ok ys → ∀ y ∈ ys, ∃ x ∈ xs, f x = .ok y := by
  induction xs with
  | nil =>
    intro ys h y hy
    rw [List.mapM_nil, pure_eq_ok_iff] at h
    subst h
    exact absurd hy List.not_mem_nil
  | cons x xs ih =>
    intro ys h z hz
    obtain ⟨y, rest, hy, hrest, rfl⟩ := mapM_cons_ok_iff.1 h
    rcases List.mem_cons.1 hz with rfl | hz
    · exact ⟨x, List.mem_cons_self, hy⟩
    · obtain ⟨x', hx', hz⟩ := ih hrest z hz
      exact ⟨x', List.mem_cons_of_mem x hx', hz⟩

/-- A test of the results that agrees with one of the arguments. -/
theorem any_eq_of_mapM {f : α → Except ε β} {p : α → Bool} {q : β → Bool}
    (hpq : ∀ x y, f x = .ok y → p x = q y) {xs : List α} :
    ∀ {ys : List β}, xs.mapM f = .ok ys → xs.any p = ys.any q := by
  induction xs with
  | nil =>
    intro ys h
    rw [List.mapM_nil, pure_eq_ok_iff] at h
    subst h
    rfl
  | cons x xs ih =>
    intro ys h
    obtain ⟨y, rest, hy, hrest, rfl⟩ := mapM_cons_ok_iff.1 h
    rw [List.any_cons, List.any_cons, hpq x y hy, ih hrest]

end ResourceQuery

import ResourceQuery.Value

set_option autoImplicit false

/-!
# Filter texts: grammar

The signs of a filter, as a reader of any target's language groups them.  `NOT`
binds tighter than `AND`, and `AND` tighter than `OR`; parentheses enclose a
filter or a conditional `(c ? a : b)`.  What is between the connectives are
atoms, of which only the outer form is known.  A list of signs has one reading
at most.

Uniqueness is by counting parentheses.  At each level some signs cannot stand
outside of parentheses, so the first such sign is where the formula ends
(`split_unique`); with the parts known to be the same signs, their readings are
by induction.
-/

namespace ResourceQuery.FilterText

/-! ## Signs and formulas -/

/-- A sign of a filter. -/
inductive Sign where
  /-- A keyword, an operator or a plain name. -/
  | word (text : String)
  /-- A quoted name or a string. -/
  | quoted (text : String)
  /-- A character that stands for itself. -/
  | mark (c : Char)
  /-- The marker of a bound value. -/
  | marker (index : Nat)
  /-- A bound value in the place of its marker. -/
  | value (value : Value)
  deriving DecidableEq, Repr

/-- The sign neither connects conditions nor encloses anything. -/
def Sign.isFlat (s : Sign) : Bool :=
  !([.mark '(', .mark ')', .word "AND", .word "OR", .mark '?', .mark ':'] : List Sign).contains s

/-- The sign in the positive form of its atom; the word `NOT` has no place there. -/
def Sign.positive (s : Sign) : Option Sign :=
  if s = .word "NOT" then none
  else if s = .word "<>" ∨ s = .word "!=" then some (.word "=")
  else if s = .word "attribute_not_exists" then some (.word "attribute_exists")
  else some s

/-- A Boolean formula over atoms. -/
inductive Formula where
  /-- An atom in its positive form, with what it was found to say of it. -/
  | atom (holds : Bool) (fact : List Sign)
  | not (φ : Formula)
  | both (φ ψ : Formula)
  | either (φ ψ : Formula)
  | choice (condition whenTrue whenFalse : Formula)
  deriving DecidableEq, Repr

namespace Formula

/-- The truth of a formula, from that of the positive atoms. -/
def eval (ρ : List Sign → Bool) : Formula → Bool
  | atom holds fact => ρ fact == holds
  | not φ => !φ.eval ρ
  | both φ ψ => φ.eval ρ && ψ.eval ρ
  | either φ ψ => φ.eval ρ || ψ.eval ρ
  | choice c t f => if c.eval ρ then t.eval ρ else f.eval ρ

/-- The formula of an atom: one with a negative word denies its positive form. -/
def ofAtom (signs : List Sign) : Formula :=
  .atom (signs.all fun s => s.positive == some s) (signs.filterMap Sign.positive)

end Formula

/-! ## The grammar -/

/-- An atom is a run of flat signs, which may end in a list in parentheses.  It
does not start with `NOT`. -/
inductive IsAtom : List Sign → Prop where
  | plain {s : Sign} {signs : List Sign} (hs : s ≠ .word "NOT") (hflat : s.isFlat = true)
      (h : ∀ x ∈ signs, x.isFlat = true) : IsAtom (s :: signs)
  | call {s : Sign} {signs arguments : List Sign} (hs : s ≠ .word "NOT") (hflat : s.isFlat = true)
      (h : ∀ x ∈ signs, x.isFlat = true) (h' : ∀ x ∈ arguments, x.isFlat = true) :
      IsAtom (s :: (signs ++ .mark '(' :: (arguments ++ [.mark ')'])))

/-- How loosely the connectives of a formula may bind. -/
inductive Level where
  | disjunction
  | conjunction
  | negation
  deriving DecidableEq, Repr

/-- The readings of signs as a formula. -/
inductive Reads : Level → List Sign → Formula → Prop where
  | atom {l : List Sign} (h : IsAtom l) : Reads .negation l (.ofAtom l)
  | not {l : List Sign} {φ : Formula} (h : Reads .negation l φ) :
      Reads .negation (.word "NOT" :: l) (.not φ)
  | enclosed {l : List Sign} {φ : Formula} (h : Reads .disjunction l φ) :
      Reads .negation (.mark '(' :: (l ++ [.mark ')'])) φ
  | choice {c t f : List Sign} {γ φ ψ : Formula} (hc : Reads .disjunction c γ)
      (ht : Reads .disjunction t φ) (hf : Reads .disjunction f ψ) :
      Reads .negation (.mark '(' :: (c ++ .mark '?' :: (t ++ .mark ':' :: (f ++ [.mark ')']))))
        (.choice γ φ ψ)
  | conjunct {l : List Sign} {φ : Formula} (h : Reads .negation l φ) : Reads .conjunction l φ
  | both {l m : List Sign} {φ ψ : Formula} (h : Reads .negation l φ) (h' : Reads .conjunction m ψ) :
      Reads .conjunction (l ++ .word "AND" :: m) (.both φ ψ)
  | disjunct {l : List Sign} {φ : Formula} (h : Reads .conjunction l φ) : Reads .disjunction l φ
  | either {l m : List Sign} {φ ψ : Formula} (h : Reads .conjunction l φ)
      (h' : Reads .disjunction m ψ) : Reads .disjunction (l ++ .word "OR" :: m) (.either φ ψ)

/-! ## Depth -/

/-- The signs that cannot stand outside of parentheses in a formula of the level. -/
def Level.stops : Level → Sign → Bool
  | .negation, s => ([.word "AND", .word "OR", .mark '?', .mark ':'] : List Sign).contains s
  | .conjunction, s => ([.word "OR", .mark '?', .mark ':'] : List Sign).contains s
  | .disjunction, s => ([.mark '?', .mark ':'] : List Sign).contains s

theorem Level.stops_cases {lvl : Level} {s : Sign} (h : lvl.stops s = true) :
    s = .word "AND" ∨ s = .word "OR" ∨ s = .mark '?' ∨ s = .mark ':' := by
  cases lvl with
  | negation => simpa [stops] using h
  | conjunction => exact .inr (by simpa [stops] using h)
  | disjunction => exact .inr (.inr (by simpa [stops] using h))

theorem Level.stops_ne {lvl : Level} {s : Sign} (h : lvl.stops s = true) :
    s ≠ .mark '(' ∧ s ≠ .mark ')' ∧ s.isFlat = false := by
  rcases stops_cases h with rfl | rfl | rfl | rfl <;> decide

/-- The number of parentheses that are open behind a sign, if `n` are open
before it.  There is none if a parenthesis is closed that is not open, or if the
sign stops and none is open. -/
def step (lvl : Level) (n : Nat) (s : Sign) : Option Nat :=
  if s = .mark '(' then some (n + 1)
  else if s = .mark ')' then if n = 0 then none else some (n - 1)
  else if n = 0 ∧ lvl.stops s = true then none
  else some n

/-- The number of parentheses that are open behind signs. -/
def depth (lvl : Level) : Nat → List Sign → Option Nat
  | n, [] => some n
  | n, s :: signs => (step lvl n s).bind fun m => depth lvl m signs

/-- Depth is counted on from one part to the next. -/
theorem depth_append (lvl : Level) (xs ys : List Sign) :
    ∀ n, depth lvl n (xs ++ ys) = (depth lvl n xs).bind fun m => depth lvl m ys := by
  induction xs with
  | nil => intro n; rfl
  | cons s xs ih =>
    intro n
    rw [List.cons_append, depth, depth, Option.bind_assoc]
    exact congrArg _ (funext ih)

theorem step_stop {lvl : Level} {s : Sign} (h : lvl.stops s = true) : step lvl 0 s = none := by
  obtain ⟨hopen, hclose, _⟩ := Level.stops_ne h
  rw [step, if_neg hopen, if_neg hclose, if_pos ⟨rfl, h⟩]

/-- Inside of parentheses nothing stops. -/
theorem step_succ {lvl lvl' : Level} {n m : Nat} {s : Sign} (h : step lvl n s = some m) :
    step lvl' (n + 1) s = some (m + 1) := by
  unfold step at h ⊢
  split
  · next hopen => rw [if_pos hopen] at h; rw [Option.some.inj h]
  · next hopen =>
    rw [if_neg hopen] at h
    split
    · next hclose =>
      rw [if_pos hclose] at h
      split at h
      · cases h
      · next hn =>
        rw [if_neg (Nat.succ_ne_zero n), ← Option.some.inj h]
        congr 1
        omega
    · next hclose =>
      rw [if_neg hclose] at h
      split at h
      · cases h
      · rw [if_neg fun hstop => Nat.succ_ne_zero n hstop.1, Option.some.inj h]

theorem depth_succ {lvl lvl' : Level} {signs : List Sign} : ∀ {n m : Nat},
    depth lvl n signs = some m → depth lvl' (n + 1) signs = some (m + 1) := by
  induction signs with
  | nil => intro n m h; rw [depth, Option.some.injEq] at h; rw [depth, h]
  | cons s signs ih =>
    intro n m h
    obtain ⟨k, hstep, h⟩ := Option.bind_eq_some_iff.1 h
    exact Option.bind_eq_some_iff.2 ⟨k + 1, step_succ hstep, ih h⟩

/-- A level that stops less passes more. -/
theorem depth_mono {lvl lvl' : Level} (hle : ∀ s, lvl'.stops s = true → lvl.stops s = true)
    {signs : List Sign} : ∀ {n m : Nat}, depth lvl n signs = some m → depth lvl' n signs = some m := by
  have hstep : ∀ {n m : Nat} {s : Sign}, step lvl n s = some m → step lvl' n s = some m := by
    intro n m s h
    unfold step at h ⊢
    split
    · next hopen => rwa [if_pos hopen] at h
    · next hopen =>
      rw [if_neg hopen] at h
      split
      · next hclose => rwa [if_pos hclose] at h
      · next hclose =>
        rw [if_neg hclose] at h
        split at h
        · cases h
        · next hstop => rwa [if_neg fun hstop' => hstop ⟨hstop'.1, hle s hstop'.2⟩]
  induction signs with
  | nil => exact fun h => h
  | cons s signs ih =>
    intro n m h
    obtain ⟨k, hk, h⟩ := Option.bind_eq_some_iff.1 h
    exact Option.bind_eq_some_iff.2 ⟨k, hstep hk, ih h⟩

theorem depth_flat (lvl : Level) {signs : List Sign} (h : ∀ s ∈ signs, s.isFlat = true) (n : Nat) :
    depth lvl n signs = some n := by
  induction signs with
  | nil => rfl
  | cons s signs ih =>
    have hs := h s List.mem_cons_self
    have hstep : step lvl n s = some n := by
      unfold step
      split
      · next hopen => rw [hopen] at hs; exact absurd hs (by decide)
      · split
        · next hclose => rw [hclose] at hs; exact absurd hs (by decide)
        · split
          · next hstop => rw [(Level.stops_ne hstop.2).2.2] at hs; cases hs
          · rfl
    rw [depth, hstep, Option.bind_some]
    exact ih fun x hx => h x (List.mem_cons_of_mem s hx)

/-- Signs in parentheses. -/
theorem depth_enclosed (lvl : Level) {lvl' : Level} {signs : List Sign}
    (h : depth lvl' 0 signs = some 0) (rest : List Sign) :
    depth lvl 0 (.mark '(' :: (signs ++ .mark ')' :: rest)) = depth lvl 0 rest := by
  have hinside : depth lvl 1 signs = some 1 := depth_succ h
  rw [depth, step, if_pos rfl, Option.bind_some, depth_append, hinside, Option.bind_some, depth,
    step, if_neg (by decide), if_pos rfl, if_neg (by decide), Option.bind_some]

/-- The place of the first sign that stops is determined. -/
theorem split_unique {lvl : Level} {s s' : Sign} (hs : lvl.stops s = true)
    (hs' : lvl.stops s' = true) {xs : List Sign} :
    ∀ {n : Nat} {xs' ys ys' : List Sign}, depth lvl n xs = some 0 → depth lvl n xs' = some 0 →
      xs ++ s :: ys = xs' ++ s' :: ys' → xs = xs' ∧ s = s' ∧ ys = ys' := by
  induction xs with
  | nil =>
    intro n xs' ys ys' h h' heq
    obtain rfl : n = 0 := Option.some.inj h
    cases xs' with
    | nil => exact ⟨rfl, List.cons.inj heq⟩
    | cons x xs' =>
      obtain ⟨rfl, _⟩ := List.cons.inj heq
      rw [depth, step_stop hs] at h'
      cases h'
  | cons x xs ih =>
    intro n xs' ys ys' h h' heq
    cases xs' with
    | nil =>
      obtain ⟨rfl, _⟩ := List.cons.inj heq
      obtain rfl : n = 0 := Option.some.inj h'
      rw [depth, step_stop hs'] at h
      cases h
    | cons x' xs' =>
      obtain ⟨rfl, htails⟩ := List.cons.inj heq
      obtain ⟨k, hk, h⟩ := Option.bind_eq_some_iff.1 h
      obtain ⟨k', hk', h'⟩ := Option.bind_eq_some_iff.1 h'
      obtain rfl : k = k' := Option.some.inj (hk.symm.trans hk')
      obtain ⟨hxs, hrest⟩ := ih h h' htails
      exact ⟨by rw [hxs], hrest⟩

/-- A sign that stops is met. -/
theorem depth_split {lvl : Level} {s : Sign} (hs : lvl.stops s = true) {xs : List Sign}
    (h : depth lvl 0 xs = some 0) (ys : List Sign) : depth lvl 0 (xs ++ s :: ys) = none := by
  rw [depth_append, h, Option.bind_some, depth, step_stop hs, Option.bind_none]

/-! ## One reading at most -/

theorem IsAtom.exists_cons {l : List Sign} (h : IsAtom l) :
    ∃ s rest, l = s :: rest ∧ s ≠ .word "NOT" ∧ s ≠ .mark '(' := by
  have hne : ∀ {s : Sign}, s.isFlat = true → s ≠ .mark '(' := by
    rintro s hs rfl
    exact absurd hs (by decide)
  cases h with
  | plain hs hflat _ => exact ⟨_, _, rfl, hs, hne hflat⟩
  | call hs hflat _ _ => exact ⟨_, _, rfl, hs, hne hflat⟩

theorem IsAtom.depth_eq {l : List Sign} (h : IsAtom l) (lvl : Level) : depth lvl 0 l = some 0 := by
  cases h with
  | plain _ hflat h =>
    refine depth_flat lvl (fun x hx => ?_) 0
    rcases List.mem_cons.1 hx with rfl | hx
    · exact hflat
    · exact h x hx
  | @call s signs arguments _ hflat h h' =>
    rw [← List.cons_append, depth_append, depth_flat lvl (fun x hx => ?_) 0, Option.bind_some,
      depth_enclosed lvl (depth_flat lvl h' 0)]
    · rfl
    · rcases List.mem_cons.1 hx with rfl | hx
      · exact hflat
      · exact h x hx

/-- The signs of a formula close what they open, and outside of parentheses
there is none that the level cannot have. -/
theorem Reads.depth_eq {lvl : Level} {l : List Sign} {φ : Formula} (h : Reads lvl l φ) :
    depth lvl 0 l = some 0 := by
  have hnegation : ∀ s, Level.conjunction.stops s = true → Level.negation.stops s = true := by
    intro s hs
    simp only [Level.stops, List.contains_cons, Bool.or_eq_true] at hs ⊢
    exact .inr hs
  have hconjunction : ∀ s, Level.disjunction.stops s = true → Level.conjunction.stops s = true := by
    intro s hs
    simp only [Level.stops, List.contains_cons, Bool.or_eq_true] at hs ⊢
    exact .inr hs
  induction h with
  | atom h => exact h.depth_eq _
  | not _ ih =>
    rw [depth, step, if_neg (by decide), if_neg (by decide), if_neg (by decide), Option.bind_some]
    exact ih
  | enclosed _ ih => exact depth_enclosed _ ih []
  | @choice c t f _ _ _ _ _ _ ihc iht ihf =>
    have hask : step .negation 1 (.mark '?') = some 1 := rfl
    have hcolon : step .negation 1 (.mark ':') = some 1 := rfl
    rw [depth, step, if_pos rfl, Option.bind_some, depth_append, depth_succ ihc, Option.bind_some,
      depth, hask, Option.bind_some, depth_append, depth_succ iht, Option.bind_some, depth, hcolon,
      Option.bind_some, depth_append, depth_succ ihf, Option.bind_some]
    rfl
  | conjunct _ ih => exact depth_mono hnegation ih
  | both _ _ ih ih' =>
    rw [depth_append, depth_mono hnegation ih, Option.bind_some, depth, step, if_neg (by decide),
      if_neg (by decide), if_neg (by decide), Option.bind_some]
    exact ih'
  | disjunct _ ih => exact depth_mono hconjunction ih
  | either _ _ ih ih' =>
    rw [depth_append, depth_mono hconjunction ih, Option.bind_some, depth, step, if_neg (by decide),
      if_neg (by decide), if_neg (by decide), Option.bind_some]
    exact ih'

/-- The forms of a conjunction. -/
theorem Reads.conjunction_cases {l : List Sign} {φ : Formula} (h : Reads .conjunction l φ) :
    Reads .negation l φ ∨ ∃ xs ys φ₁ φ₂, l = xs ++ .word "AND" :: ys ∧ φ = .both φ₁ φ₂ ∧
      Reads .negation xs φ₁ ∧ Reads .conjunction ys φ₂ := by
  cases h with
  | conjunct h => exact .inl h
  | both h h' => exact .inr ⟨_, _, _, _, rfl, rfl, h, h'⟩

/-- The forms of a disjunction. -/
theorem Reads.disjunction_cases {l : List Sign} {φ : Formula} (h : Reads .disjunction l φ) :
    Reads .conjunction l φ ∨ ∃ xs ys φ₁ φ₂, l = xs ++ .word "OR" :: ys ∧ φ = .either φ₁ φ₂ ∧
      Reads .conjunction xs φ₁ ∧ Reads .disjunction ys φ₂ := by
  cases h with
  | disjunct h => exact .inl h
  | either h h' => exact .inr ⟨_, _, _, _, rfl, rfl, h, h'⟩

/-- What is read behind `NOT`. -/
theorem Reads.not_inv {l : List Sign} {φ : Formula} (h : Reads .negation (.word "NOT" :: l) φ) :
    ∃ ψ, φ = .not ψ ∧ Reads .negation l ψ := by
  cases h with
  | atom h =>
    obtain ⟨s, rest, heq, hne, _⟩ := h.exists_cons
    exact absurd (List.cons.inj heq).1.symm hne
  | not h => exact ⟨_, rfl, h⟩

/-- What is read behind an opening parenthesis. -/
theorem Reads.enclosed_inv {l : List Sign} {φ : Formula} (h : Reads .negation (.mark '(' :: l) φ) :
    (∃ m, l = m ++ [.mark ')'] ∧ Reads .disjunction m φ) ∨
      ∃ c t f φ₁ φ₂ φ₃, l = c ++ .mark '?' :: (t ++ .mark ':' :: (f ++ [.mark ')'])) ∧
        φ = .choice φ₁ φ₂ φ₃ ∧ Reads .disjunction c φ₁ ∧ Reads .disjunction t φ₂ ∧
        Reads .disjunction f φ₃ := by
  cases h with
  | atom h =>
    obtain ⟨s, rest, heq, _, hne⟩ := h.exists_cons
    exact absurd (List.cons.inj heq).1.symm hne
  | enclosed h => exact .inl ⟨_, rfl, h⟩
  | choice hc ht hf => exact .inr ⟨_, _, _, _, _, _, rfl, rfl, hc, ht, hf⟩

/-- An atom is read in one way. -/
theorem Reads.atom_inv {l : List Sign} {φ : Formula} (hl : IsAtom l) (h : Reads .negation l φ) :
    φ = .ofAtom l := by
  obtain ⟨s, rest, rfl, hnot, hopen⟩ := hl.exists_cons
  cases h with
  | atom _ => rfl
  | not _ => exact absurd rfl hnot
  | enclosed _ => exact absurd rfl hopen
  | choice _ _ _ => exact absurd rfl hopen

/-- A formula does not go on behind one of its level with a sign that stops there. -/
theorem Reads.not_split {lvl : Level} {xs ys : List Sign} {s : Sign} {φ ψ : Formula}
    (hs : lvl.stops s = true) (hx : Reads lvl xs ψ) (h : Reads lvl (xs ++ s :: ys) φ) : False := by
  have hsome := h.depth_eq
  rw [depth_split hs hx.depth_eq ys] at hsome
  cases hsome

/-- What stands in the parentheses of a conditional. -/
theorem inside_conditional {l c t f : List Sign}
    (h : l ++ [.mark ')'] = c ++ .mark '?' :: (t ++ .mark ':' :: (f ++ [.mark ')']))) :
    l = c ++ .mark '?' :: (t ++ .mark ':' :: f) := by
  have hlast : l ++ [.mark ')'] = (c ++ .mark '?' :: (t ++ .mark ':' :: f)) ++ [.mark ')'] := by
    rw [h, List.append_assoc, List.cons_append, List.append_assoc, List.cons_append]
  exact List.append_cancel_right hlast

/-- Signs have one reading at most. -/
theorem Reads.unique {lvl : Level} {l : List Sign} {φ ψ : Formula} (h : Reads lvl l φ)
    (h' : Reads lvl l ψ) : φ = ψ := by
  -- on the first reading; a sign that stops one reading at depth zero would cut the other short,
  -- so both are split at the same sign or neither is
  induction h generalizing ψ with
  | atom hl => exact (h'.atom_inv hl).symm
  | not _ ih =>
    obtain ⟨ψ', rfl, hinner⟩ := h'.not_inv
    rw [ih hinner]
  | @enclosed l φ h ih =>
    rcases h'.enclosed_inv with ⟨m, heq, h'⟩ | ⟨c, t, f, _, _, _, heq, _, hc, _, _⟩
    · obtain rfl := List.append_cancel_right heq
      exact ih h'
    · obtain rfl := inside_conditional heq
      exact (hc.not_split (by decide) h).elim
  | @choice c t f γ φ ψ' hc ht hf ihc iht ihf =>
    rcases h'.enclosed_inv with ⟨m, heq, h'⟩ | ⟨c', t', f', _, _, _, heq, rfl, hc', ht', hf'⟩
    · obtain rfl := inside_conditional heq.symm
      exact (hc.not_split (by decide) h').elim
    · obtain ⟨rfl, _, htail⟩ := split_unique (by decide) (by decide) hc.depth_eq hc'.depth_eq heq
      obtain ⟨rfl, _, hlast⟩ := split_unique (by decide) (by decide) ht.depth_eq ht'.depth_eq htail
      obtain rfl := List.append_cancel_right hlast
      rw [ihc hc', iht ht', ihf hf']
  | @conjunct l φ h ih =>
    rcases h'.conjunction_cases with h' | ⟨xs, ys, _, _, rfl, rfl, hx, _⟩
    · exact ih h'
    · exact (hx.not_split (by decide) h).elim
  | @both l m φ₁ φ₂ h h₂ ih ih₂ =>
    rcases h'.conjunction_cases with h' | ⟨xs, ys, _, _, heq, rfl, hx, hy⟩
    · exact (h.not_split (by decide) h').elim
    · obtain ⟨rfl, _, rfl⟩ := split_unique (by decide) (by decide) h.depth_eq hx.depth_eq heq
      rw [ih hx, ih₂ hy]
  | @disjunct l φ h ih =>
    rcases h'.disjunction_cases with h' | ⟨xs, ys, _, _, rfl, rfl, hx, _⟩
    · exact ih h'
    · exact (hx.not_split (by decide) h).elim
  | @either l m φ₁ φ₂ h h₂ ih ih₂ =>
    rcases h'.disjunction_cases with h' | ⟨xs, ys, _, _, heq, rfl, hx, hy⟩
    · exact (h.not_split (by decide) h').elim
    · obtain ⟨rfl, _, rfl⟩ := split_unique (by decide) (by decide) h.depth_eq hx.depth_eq heq
      rw [ih hx, ih₂ hy]

end ResourceQuery.FilterText

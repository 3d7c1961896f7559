import ResourceQuery.Proofs.Statement.Congruence
import ResourceQuery.Proofs.Term.LetterCase

set_option autoImplicit false

/-!
# Statements: runs that match others

A step matches another one if it comes to the results that the other one comes
to; where it does not, it fails with a fault that is excused.  The compilers of
two targets that match in what they do in their own way match in all that they
do, also for terms that differ in the letter case of their operator words.

Matching is one-sided: the first run may fail where the second does not, but
only with a fault that is excused.  Where nothing is excused it comes to all
results that the second run comes to (`Matches.ok`).
-/

namespace ResourceQuery

/-- The same values were bound, and what is remembered of names is related. -/
structure Progress.Beside {σ : Type} (R : σ → σ → Prop) (p p' : Progress σ) : Prop where
  values_eq : p.values = p'.values
  scopes : R p.scope p'.scope

namespace Build

variable {σ α α' β β' : Type}

theorem bind_error {m : Build σ α} {k : α → Build σ β} {p : Progress σ} {fault : Fault}
    (h : m p = .error fault) : (m >>= k) p = .error fault := by
  change (m p >>= fun found => k found.1 found.2) = _
  rw [h]
  rfl

/-- Each result of the second step is matched by one of the first, from progress
that is beside its own, unless the first one fails with an excused fault. -/
def Matches (excused : Fault → Prop) (R : σ → σ → Prop) (S : α → α' → Prop) (m : Build σ α)
    (m' : Build σ α') : Prop :=
  ∀ ⦃p p' q' : Progress σ⦄ ⦃a' : α'⦄, p.Beside R p' → m' p' = .ok (a', q') →
    (∃ a q, m p = .ok (a, q) ∧ S a a' ∧ q.Beside R q') ∨
      ∃ fault, excused fault ∧ m p = .error fault

namespace Matches

variable {excused : Fault → Prop} {R : σ → σ → Prop} {S : α → α' → Prop} {T : β → β' → Prop}

theorem pure {a : α} {a' : α'} (h : S a a') :
    Matches excused R S (pure a : Build σ α) (pure a' : Build σ α') := by
  intro p p' q' b' hp hb'
  obtain ⟨rfl, rfl⟩ := pure_ok_iff.1 hb'
  exact .inl ⟨a, p, pure_ok_iff.2 ⟨rfl, rfl⟩, h, hp⟩

theorem bind {m : Build σ α} {m' : Build σ α'} {k : α → Build σ β} {k' : α' → Build σ β'}
    (h : Matches excused R S m m') (hk : ∀ a a', S a a' → Matches excused R T (k a) (k' a')) :
    Matches excused R T (m >>= k) (m' >>= k') := by
  intro p p' q' b' hp hb'
  obtain ⟨a', q₁', hm', hb'⟩ := bind_ok_iff.1 hb'
  rcases h hp hm' with ⟨a, q₁, hm, ha, hq₁⟩ | ⟨fault, hexcused, hm⟩
  · rcases hk a a' ha hq₁ hb' with ⟨b, q, hb, hT, hq⟩ | ⟨fault, hexcused, hb⟩
    · exact .inl ⟨b, q, bind_ok_iff.2 ⟨a, q₁, hm, hb⟩, hT, hq⟩
    · refine .inr ⟨fault, hexcused, ?_⟩
      change (m p >>= fun found => k found.1 found.2) = _
      rw [hm]
      exact hb
  · exact .inr ⟨fault, hexcused, bind_error hm⟩

/-- A look-up that finds something related or fails with an excused fault. -/
theorem attempt {x : Except Fault α} {x' : Except Fault α'}
    (h : ∀ a', x' = .ok a' → (∃ a, x = .ok a ∧ S a a') ∨ ∃ fault, excused fault ∧ x = .error fault) :
    Matches excused R S (lookup x : Build σ α) (lookup x' : Build σ α') := by
  intro p p' q' a' hp ha'
  obtain ⟨hx', rfl⟩ := lookup_ok_iff.1 ha'
  rcases h a' hx' with ⟨a, hx, ha⟩ | ⟨fault, hexcused, rfl⟩
  · exact .inl ⟨a, p, lookup_ok_iff.2 ⟨hx, rfl⟩, ha, hp⟩
  · exact .inr ⟨fault, hexcused, rfl⟩

theorem lookup {x : Except Fault α} {x' : Except Fault α'}
    (h : ∀ a', x' = .ok a' → ∃ a, x = .ok a ∧ S a a') :
    Matches excused R S (lookup x : Build σ α) (lookup x' : Build σ α') :=
  attempt fun a' ha' => .inl (h a' ha')

theorem get : Matches excused R (Progress.Beside R) (get : Build σ (Progress σ)) get := by
  intro p p' q' a' hp ha'
  cases ha'
  exact .inl ⟨p, p, rfl, hp, hp⟩

theorem set {p p' : Progress σ} (h : p.Beside R p') :
    Matches excused R Eq (set p : Build σ PUnit) (set p') := by
  intro _ _ q' a' _ ha'
  cases ha'
  exact .inl ⟨_, p, rfl, rfl, h⟩

theorem throw {fault : Fault} {m : Build σ α} :
    Matches excused R S m (throw fault : Build σ α') := by
  intro p p' q' a' _ ha'
  exact absurd ha' throw_ne_ok

/-- A value that is bound gets the same marker. -/
theorem value (column : String) (value : Value) :
    Matches excused R Eq (Build.bind column value : Build σ Nat) (Build.bind column value) := by
  intro p p' q' k' hp hk'
  obtain ⟨rfl, rfl⟩ := bind_value_ok_iff.1 hk'
  refine .inl ⟨_, _, bind_value_ok_iff.2 ⟨rfl, rfl⟩, by rw [hp.values_eq], ?_, hp.scopes⟩
  rw [hp.values_eq]

/-- A step matches itself, from the same progress. -/
theorem refl (m : Build σ α) : Matches excused Eq Eq m m := by
  rintro ⟨values, scope⟩ ⟨_, _⟩ q' a' ⟨rfl, rfl⟩ ha'
  exact .inl ⟨a', q', ha', rfl, rfl, rfl⟩

/-- A step that matches without an excuse comes to what the other one comes to. -/
theorem ok {m m' : Build σ α} (h : Matches (fun _ => False) Eq Eq m m') {p q : Progress σ} {a : α}
    (hm' : m' p = .ok (a, q)) : m p = .ok (a, q) := by
  rcases h ⟨rfl, rfl⟩ hm' with ⟨_, ⟨values, scope⟩, hm, rfl, rfl, rfl⟩ | ⟨_, hexcused, _⟩
  · exact hm
  · exact hexcused.elim

/-- Matching goes through sequences of steps, so it goes through the compilers. -/
theorem congruence : Congruence (@fun α α' => @Matches σ α α' excused R) where
  pure := Matches.pure
  bind := Matches.bind
  throw := @fun _ _ _ _ _ => Matches.throw
  lookup _ := .lookup fun a hx => ⟨a, hx, rfl⟩

end Matches
end Build

/-! ## Arguments -/

namespace Term

variable {t t' : Term}

theorem Recased.column (h : Recased t t') {path : String} (hpath : t'.column = .ok path) :
    t.column = .ok path := by
  obtain ⟨token, quote, children⟩ := t
  obtain ⟨token', quote', children'⟩ := t'
  have hchildren : List.Forall₂ Recased children children' := h.children
  cases hchildren with
  | nil => cases hpath
  | @cons c c' _ _ hc _ =>
    rw [Term.column] at hpath ⊢
    dsimp only [children_node] at hpath ⊢
    split at hpath
    · next hword =>
      have hword : c.isWord = true := hc.isWord_eq.trans hword
      rw [if_pos hword, hc.eq_of_isLeaf (Bool.and_eq_true_iff.1 hword).1]
      exact hpath
    · cases hpath

theorem Recased.values (h : Recased t t') {vs' : List Term} (hvalues : t'.values = .ok vs') :
    ∃ vs, t.values = .ok vs ∧ List.Forall₂ Recased vs vs' := by
  obtain ⟨token, quote, children⟩ := t
  obtain ⟨token', quote', children'⟩ := t'
  have hchildren : List.Forall₂ Recased children children' := h.children
  rw [Term.values] at hvalues ⊢
  dsimp only [children_node] at hvalues ⊢
  rcases hchildren with _ | ⟨_, _ | ⟨hv, hvs⟩⟩
  · cases hvalues
  · cases hvalues
  · cases hvalues
    exact ⟨_, rfl, .cons hv hvs⟩

theorem Recased.value (h : Recased t t') {v' : Term} (hvalue : t'.value = .ok v') :
    ∃ v, t.value = .ok v ∧ Recased v v' := by
  obtain ⟨token, quote, children⟩ := t
  obtain ⟨token', quote', children'⟩ := t'
  have hchildren : List.Forall₂ Recased children children' := h.children
  rw [Term.value] at hvalue ⊢
  dsimp only [children_node] at hvalue ⊢
  rcases hchildren with _ | ⟨_, _ | ⟨hv, _ | ⟨_, _⟩⟩⟩
  · cases hvalue
  · cases hvalue
  · cases hvalue
    exact ⟨_, rfl, hv⟩
  · cases hvalue

theorem Recased.literal (h : Recased t t') {path text : String}
    (htext : t'.literal path = .ok text) : t.literal path = .ok text := by
  rw [Term.literal] at htext
  split at htext
  · next hleaf =>
    rw [h.eq_of_isLeaf (h.isLeaf_eq.trans hleaf), Term.literal, if_pos hleaf, htext]
  · cases htext

theorem Recased.cast (h : Recased t t') {property : Property} {v : Value}
    (hv : Value.cast property t' = .ok v) : Value.cast property t = .ok v := by
  cases hleaf : t.isLeaf with
  | true => rw [h.eq_of_isLeaf hleaf, hv]
  | false =>
    rw [Value.cast, ← h.isLeaf_eq, hleaf, Bool.not_false, if_pos rfl] at hv
    cases hv

end Term

/-! ## Predicates -/

namespace Dialog

open Build (Matches)
open Term (Recased)

variable {σ C : Type} {excused : Fault → Prop} {R : σ → σ → Prop} {d d' : Dialog σ C} {t t' : Term}

/-- What one target does in its own way is matched by what another one does. -/
structure Matching (excused : Fault → Prop) (R : σ → σ → Prop) (d d' : Dialog σ C) : Prop where
  deciding : d.deciding = d'.deciding
  refused : d.refused = d'.refused
  unlike : d.unlike = d'.unlike
  outside : d.outside = d'.outside
  resolve : ∀ path, Matches excused R Eq (d.resolve path) (d'.resolve path)
  test : ∀ op column path text,
    Matches excused R Eq (d.test op column path text) (d'.test op column path text)
  blankness : ∀ isBlank column path,
    Matches excused R Eq (d.blankness isBlank column path) (d'.blankness isBlank column path)

namespace Matching

theorem refl (d : Dialog σ C) : Matching excused Eq d d :=
  ⟨rfl, rfl, rfl, rfl, fun _ => .refl _, fun _ _ _ _ => .refl _, fun _ _ _ => .refl _⟩

theorem column (h : Recased t t') :
    Matches (σ := σ) excused R Eq (Build.lookup t.column) (Build.lookup t'.column) :=
  .lookup fun path hpath => ⟨path, h.column hpath, rfl⟩

theorem bindLiteral (path : String) (property : Property) {v v' : Term} (h : Recased v v') :
    Matches (σ := σ) excused R Eq (bindLiteral path property v)
      (Dialog.bindLiteral path property v') := by
  unfold Dialog.bindLiteral
  refine .bind (.lookup fun bound hbound => ⟨bound, h.cast hbound, rfl⟩) fun bound _ hbound => ?_
  subst hbound
  exact .value path bound

/-- The comparisons of terms that differ in case match. -/
theorem comparison (hd : Matching excused R d d') (h : Recased t t') (op : Comparison) :
    Matches excused R Eq (d.comparison t op) (d'.comparison t' op) := by
  unfold Dialog.comparison
  refine .bind (column h) fun path path' hpath => ?_
  subst hpath
  refine .bind (.lookup fun v' hv' => h.value hv') fun v v' hv => ?_
  refine .bind (hd.resolve path) fun found found' hfound => ?_
  subst hfound
  obtain ⟨c, property⟩ := found
  dsimp only
  rw [hv.isNull_eq, hv.isPattern_eq, hd.unlike]
  by_cases hnull : v'.isNull = true
  · rw [if_pos hnull, if_pos hnull]
    cases op with
    | eq | ne => exact .pure rfl
    | lt | le | gt | ge => exact .throw
  · rw [if_neg hnull, if_neg hnull]
    by_cases hlike : v'.isPattern = true ∧ op = .eq
    · rw [if_pos hlike, if_pos hlike, hv.eq_of_isPattern hlike.1]
      exact hd.test .like c path v'.token
    · rw [if_neg hlike, if_neg hlike]
      by_cases hunlike : v'.isPattern = true ∧ op = .ne
      · rw [if_pos hunlike, if_pos hunlike, hv.eq_of_isPattern hunlike.1]
        exact .bind (hd.test .like c path v'.token) fun q q' hq => .pure (by rw [hq])
      · rw [if_neg hunlike, if_neg hunlike]
        refine .bind (.lookup fun bound hbound => ⟨bound, hv.cast hbound, rfl⟩)
          fun bound bound' hbound => ?_
        subst hbound
        exact .bind (.value path bound) fun k k' hk => .pure (by rw [hk])

theorem membership (hd : Matching excused R d d') (h : Recased t t') (negated : Bool) :
    Matches excused R Eq (d.membership t negated) (d'.membership t' negated) := by
  unfold Dialog.membership
  refine .bind (column h) fun path path' hpath => ?_
  subst hpath
  refine .bind (.lookup fun vs' hvs' => h.values hvs') fun vs vs' hvs => ?_
  refine .bind (hd.resolve path) fun found found' hfound => ?_
  subst hfound
  obtain ⟨c, property⟩ := found
  refine .bind (Matches.congruence.mapM_eq (hvs.imp fun v v' hv => bindLiteral path property hv))
    fun ks ks' hks => ?_
  rw [hks, hd.outside]
  exact .pure rfl

theorem columnTest (hd : Matching excused R d d') (h : Recased t t')
    {test test' : C → String → Build σ (Predicate C)}
    (htest : ∀ column path, Matches excused R Eq (test column path) (test' column path)) :
    Matches excused R Eq (d.columnTest t test) (d'.columnTest t' test') := by
  unfold Dialog.columnTest
  rw [h.children.length_eq]
  split
  · exact .bind (S := fun _ _ => False) .throw fun _ _ h => h.elim
  · refine .bind (column h) fun path path' hpath => ?_
    subst hpath
    refine .bind (hd.resolve path) fun found found' hfound => ?_
    subst hfound
    exact htest found.1 path

/-- A test of texts, one for each text that is given. -/
theorem textTest (hd : Matching excused R d d') (h : Recased t t') (op : TextOperator) :
    Matches excused R Eq (d.textTest t op) (d'.textTest t' op) := by
  unfold Dialog.textTest
  rw [hd.refused]
  cases d'.refused op with
  | some alternatives => exact .throw
  | none =>
    refine .bind (column h) fun path path' hpath => ?_
    subst hpath
    refine .bind (.lookup fun vs' hvs' => h.values hvs') fun vs vs' hvs => ?_
    refine .bind (hd.resolve path) fun found found' hfound => ?_
    subst hfound
    obtain ⟨c, property⟩ := found
    have htests : List.Forall₂ (fun v v' => Matches excused R Eq (d.testLiteral op c path v)
        (d'.testLiteral op c path v')) vs vs' := by
      refine hvs.imp fun v v' hv => ?_
      refine .bind (.lookup fun text htext => ⟨text, hv.literal htext, rfl⟩)
        fun text text' htext => ?_
      subst htext
      exact hd.test op c path text
    exact .bind (Matches.congruence.mapM_eq htests) fun qs qs' hqs => .pure (by rw [hqs])

theorem atom (hd : Matching excused R d d') (h : Recased t t') (op : Operator) :
    Matches excused R Eq (d.atom t op) (d'.atom t' op) := by
  cases op with
  | comparison op => exact hd.comparison h op
  | membership negated => exact hd.membership h negated
  | nullity isNull =>
    unfold Dialog.atom
    exact hd.columnTest h fun column path => .pure rfl
  | blankness isBlank => exact hd.columnTest h (hd.blankness isBlank)
  | text op => exact hd.textTest h op
  | all | any | negation | choice => exact .throw

/-- Filter terms are compiled to the same predicates, whatever the case of their operators. -/
theorem predicate (hd : Matching excused R d d') (h : Recased t t') :
    Matches excused R Eq (d.predicate t) (d'.predicate t') := by
  induction t using Term.induction generalizing t' with
  | node token quote children ih =>
    obtain ⟨token', quote', children'⟩ := t'
    exact predicate_congr Matches.congruence hd.deciding
      (Operator.ofWord?_congr h.lower_token_eq) (fun _ _ _ => h.below @ih)
      fun op _ => hd.atom h op

theorem predicate_self (hd : Matching excused R d d') (t : Term) :
    Matches excused R Eq (d.predicate t) (d'.predicate t) := hd.predicate (Recased.refl t)

theorem predicates (hd : Matching excused R d d') {ts ts' : List Term}
    (h : List.Forall₂ Recased ts ts') :
    Matches excused R Eq (d.predicates ts) (d'.predicates ts') :=
  predicates_congr Matches.congruence (h.imp fun _ _ ht => hd.predicate ht)

end Matching
end Dialog
end ResourceQuery

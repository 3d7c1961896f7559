import ResourceQuery.Proofs.Statement.Congruence
import ResourceQuery.Proofs.Statement.Literals
import ResourceQuery.Statement.TextFunctions

set_option autoImplicit false

/-!
# Statements: two runs side by side

Filters that differ in their literals alone are compiled to the same
predicates.  Two runs are followed side by side: when both come to a result, the
results are related, and what the target remembers and the columns that values
were bound for are the same in both.

Nothing is said of runs of which only one comes to a result: a literal may be
refused where another is taken, and the property that reads it decides.
-/

namespace ResourceQuery

/-! ## Steps side by side -/

/-- The same is remembered of names, and values were bound for the same columns. -/
structure Progress.Alike {σ : Type} (p p' : Progress σ) : Prop where
  scope_eq : p.scope = p'.scope
  columns_eq : p.values.map Prod.fst = p'.values.map Prod.fst

namespace Build

variable {σ α α' β β' : Type}

/-- Two steps that, from alike progress, both come to a result, come to related
results and to alike progress. -/
def Together (R : α → α' → Prop) (m : Build σ α) (m' : Build σ α') : Prop :=
  ∀ ⦃p p' q q' : Progress σ⦄ ⦃a : α⦄ ⦃a' : α'⦄, p.Alike p' → m p = .ok (a, q) →
    m' p' = .ok (a', q') → R a a' ∧ q.Alike q'

variable {R : α → α' → Prop} {S : β → β' → Prop}

theorem Together.pure {a : α} {a' : α'} (h : R a a') :
    Together R (pure a : Build σ α) (pure a' : Build σ α') := by
  intro p p' q q' b b' hp hb hb'
  obtain ⟨rfl, rfl⟩ := pure_ok_iff.1 hb
  obtain ⟨rfl, rfl⟩ := pure_ok_iff.1 hb'
  exact ⟨h, hp⟩

theorem Together.bind {m : Build σ α} {m' : Build σ α'} {k : α → Build σ β} {k' : α' → Build σ β'}
    (h : Together R m m') (hk : ∀ a a', R a a' → Together S (k a) (k' a')) :
    Together S (m >>= k) (m' >>= k') := by
  intro p p' q q' b b' hp hb hb'
  obtain ⟨a, q₁, hm, hb⟩ := bind_ok_iff.1 hb
  obtain ⟨a', q₁', hm', hb'⟩ := bind_ok_iff.1 hb'
  obtain ⟨ha, hq₁⟩ := h hp hm hm'
  exact hk a a' ha hq₁ hb hb'

theorem Together.lookup {x : Except Fault α} {x' : Except Fault α'}
    (h : ∀ a a', x = .ok a → x' = .ok a' → R a a') :
    Together R (lookup x : Build σ α) (lookup x' : Build σ α') := by
  intro p p' q q' a a' hp ha ha'
  obtain ⟨hx, rfl⟩ := lookup_ok_iff.1 ha
  obtain ⟨hx', rfl⟩ := lookup_ok_iff.1 ha'
  exact ⟨h a a' hx hx', hp⟩

theorem Together.lookup_self (x : Except Fault α) :
    Together Eq (Build.lookup x : Build σ α) (Build.lookup x) :=
  .lookup fun _ _ ha ha' => Except.ok.inj (ha.symm.trans ha')

theorem Together.get : Together Progress.Alike (get : Build σ (Progress σ)) get := by
  intro p p' q q' a a' hp ha ha'
  cases ha
  cases ha'
  exact ⟨hp, hp⟩

theorem Together.set {p p' : Progress σ} (h : p.Alike p') :
    Together Eq (set p : Build σ PUnit) (set p') := by
  intro _ _ q q' a a' _ ha ha'
  cases ha
  cases ha'
  exact ⟨rfl, h⟩

theorem Together.throw {fault : Fault} {m' : Build σ α'} :
    Together R (throw fault : Build σ α) m' := by
  intro p p' q q' a a' _ ha
  exact absurd ha throw_ne_ok

/-- Values that are bound for one column get the same marker. -/
theorem Together.value (column : String) (value value' : Value) :
    Together Eq (Build.bind column value : Build σ Nat) (Build.bind column value') := by
  intro p p' q q' k k' hp hk hk'
  obtain ⟨rfl, rfl⟩ := bind_value_ok_iff.1 hk
  obtain ⟨rfl, rfl⟩ := bind_value_ok_iff.1 hk'
  refine ⟨?_, hp.scope_eq, ?_⟩
  · have hlength := congrArg List.length hp.columns_eq
    rw [List.length_map, List.length_map] at hlength
    rw [hlength]
  · rw [List.map_append, List.map_append, hp.columns_eq]
    rfl

/-- What is done with the marker of a value does not depend on the value. -/
theorem Together.marked {α : Type} (column : String) (value value' : Value) (result : Nat → α) :
    Together (σ := σ) Eq (do return result (← Build.bind column value))
      (do return result (← Build.bind column value')) :=
  .bind (.value column value value') fun k k' hk => .pure (by rw [hk])

/-- The comparison goes through sequences of steps, so it goes through the
compilers. -/
theorem Together.congruence : Congruence (@Together σ) where
  pure := Together.pure
  bind := Together.bind
  throw := @fun _ _ _ _ _ => Together.throw
  lookup := Together.lookup_self

end Build

/-! ## Predicates side by side -/

theorem Operator.bindsLiterals_of_isConnective {op : Operator} (h : op.isConnective = true) :
    op.bindsLiterals = false := by
  cases op with
  | all | any | negation | choice => rfl
  | comparison _ | membership _ | nullity _ | blankness _ | text _ => simp [isConnective] at h

/-- A target with functions for texts looks at the text only if it is a pattern. -/
theorem TextFunctions.together_test {σ C : Type} (f : TextFunctions) (op : TextOperator) (column : C)
    (path text text' : String) (h : op = .like → text = text') :
    Build.Together (σ := σ) Eq (f.test op column path text) (f.test op column path text') := by
  unfold test
  by_cases hop : op = .like
  · rw [if_pos hop, if_pos hop, h hop]
    unfold like
    cases (Pattern.starred? text').filter f.takes with
    | none => exact .throw
    | some s => exact .marked path _ _ _
  · rw [if_neg hop, if_neg hop]
    exact .marked path _ _ _

namespace Dialog

open Build (Together)
open Term (alike AlikeValue)

variable {σ C : Type} {d : Dialog σ C} {t t' : Term}

/-- What a target does does not depend on the values that were bound before,
nor, but for patterns, on the text that it tests a column against. -/
structure Oblivious (d : Dialog σ C) : Prop where
  resolve : ∀ path, Together Eq (d.resolve path) (d.resolve path)
  test : ∀ op column path text text', (op = .like → text = text') →
    Together Eq (d.test op column path text) (d.test op column path text')
  blankness : ∀ isBlank column path,
    Together Eq (d.blankness isBlank column path) (d.blankness isBlank column path)

theorem together_column (h : alike t t' = true) :
    Together (σ := σ) Eq (Build.lookup t.column) (Build.lookup t'.column) := by
  rw [Term.column_eq_of_alike h]
  exact .lookup_self _

/-- Literals are bound for the same column, whatever their texts are. -/
theorem together_bindLiteral (path : String) (property : Property) (v v' : Term) :
    Together (σ := σ) Eq (bindLiteral path property v) (bindLiteral path property v') := by
  unfold bindLiteral
  exact .bind (R := fun _ _ => True) (.lookup fun _ _ _ _ => trivial) fun bound bound' _ =>
    .value path bound bound'

/-- A literal that is bound first. -/
theorem together_bound (path : String) (property : Property) (v v' : Term)
    (test : Nat → Predicate C) :
    Together (σ := σ) Eq
      (do
        let bound ← Build.lookup (Value.cast property v)
        let marker ← Build.bind path bound
        return test marker)
      (do
        let bound ← Build.lookup (Value.cast property v')
        let marker ← Build.bind path bound
        return test marker) := by
  refine .bind (R := fun _ _ => True) (.lookup fun _ _ _ _ => trivial) fun bound bound' _ => ?_
  exact .bind (.value path bound bound') fun k k' hk => .pure (by rw [hk])

theorem Oblivious.comparison (hd : d.Oblivious) (h : alike t t' = true) (op : Comparison) :
    Together Eq (d.comparison t op) (d.comparison t' op) := by
  unfold Dialog.comparison
  refine .bind (together_column h) fun path path' hpath => ?_
  subst hpath
  refine .bind (.lookup fun v v' hv hv' => Term.alikeValue_of_value h hv hv') fun v v' hv => ?_
  refine .bind (hd.resolve path) fun found found' hfound => ?_
  subst hfound
  obtain ⟨c, property⟩ := found
  dsimp only
  have hbound := together_bound (σ := σ) path property v v' (Predicate.comparison op c)
  by_cases hnull : v.isNull = true
  · obtain rfl := hv.eq_of_special (.inl hnull)
    rw [if_pos hnull]
    cases op with
    | eq | ne => exact .pure rfl
    | lt | le | gt | ge => exact .throw
  · have hnull' : ¬v'.isNull = true := hv.sameKind.isNull_eq ▸ hnull
    simp only [hnull, hnull', Bool.false_eq_true, if_false]
    by_cases hpattern : v.isPattern = true
    · obtain rfl := hv.eq_of_special (.inr hpattern)
      have hlike := hd.test .like c path v.token v.token fun _ => rfl
      cases op with
      | eq => simpa only [hpattern, true_and, if_true] using hlike
      | ne =>
        have hunlike : Together Eq (do return d.unlike (← d.test .like c path v.token))
            (do return d.unlike (← d.test .like c path v.token)) :=
          .bind hlike fun q q' hq => .pure (congrArg d.unlike hq)
        simpa only [hpattern, true_and, reduceCtorEq, if_true, if_false] using hunlike
      | lt | le | gt | ge =>
        simpa only [hpattern, true_and, reduceCtorEq, if_false] using hbound
    · have hpattern' : ¬v'.isPattern = true := hv.sameKind.isPattern_eq ▸ hpattern
      simpa only [hpattern, hpattern', Bool.false_eq_true, false_and, if_false] using hbound

theorem Oblivious.membership (hd : d.Oblivious) (h : alike t t' = true) (negated : Bool) :
    Together Eq (d.membership t negated) (d.membership t' negated) := by
  unfold Dialog.membership
  refine .bind (together_column h) fun path path' hpath => ?_
  subst hpath
  refine .bind (.lookup fun vs vs' hvs hvs' => Term.forall₂_of_values h hvs hvs')
    fun vs vs' hvs => ?_
  refine .bind (hd.resolve path) fun found found' hfound => ?_
  subst hfound
  obtain ⟨c, property⟩ := found
  have hmarkers := Together.congruence.mapM_eq (hvs.imp fun v v' _ =>
    together_bindLiteral (σ := σ) path property v v')
  exact .bind hmarkers fun ks ks' hks => .pure (by rw [hks])

theorem Oblivious.columnTest (hd : d.Oblivious) (h : alike t t' = true)
    {test : C → String → Build σ (Predicate C)}
    (htest : ∀ column path, Together Eq (test column path) (test column path)) :
    Together Eq (d.columnTest t test) (d.columnTest t' test) := by
  unfold Dialog.columnTest
  rw [Term.length_eq_of_alike h]
  split
  · exact .bind (R := fun _ _ => False) .throw fun _ _ h => h.elim
  · refine .bind (together_column h) fun path path' hpath => ?_
    subst hpath
    refine .bind (hd.resolve path) fun found found' hfound => ?_
    subst hfound
    exact htest found.1 path

theorem Oblivious.textTest (hd : d.Oblivious) (h : alike t t' = true) {op : TextOperator}
    (hop : Operator.ofWord? t.token = some (.text op)) :
    Together Eq (d.textTest t op) (d.textTest t' op) := by
  unfold Dialog.textTest
  cases d.refused op with
  | some alternatives => exact .throw
  | none =>
    refine .bind (together_column h) fun path path' hpath => ?_
    subst hpath
    refine .bind (.lookup fun vs vs' hvs hvs' => Term.forall₂_of_values h hvs hvs')
      fun vs vs' hvs => ?_
    refine .bind (hd.resolve path) fun found found' hfound => ?_
    subst hfound
    obtain ⟨c, property⟩ := found
    have htests : List.Forall₂ (fun v v' => Together Eq (d.testLiteral op c path v)
        (d.testLiteral op c path v')) vs vs' := by
      refine hvs.imp fun v v' hv => ?_
      refine .bind (R := fun text text' => op = .like → text = text')
        (.lookup fun text text' htext htext' hlike => ?_)
        fun text text' htext => hd.test op c path text text' htext
      -- the patterns of `like` are no literals, so that they are the same
      have hbinds : Term.bindsLiterals t.token = false := by
        rw [Term.bindsLiterals, hop, hlike]
        rfl
      rw [hbinds, Term.alikeValue_false] at hv
      exact Term.literal_eq_of_alike hv htext htext'
    exact .bind (Together.congruence.mapM_eq htests) fun qs qs' hqs => .pure (by rw [hqs])

theorem Oblivious.atom (hd : d.Oblivious) (h : alike t t' = true) {op : Operator}
    (hop : Operator.ofWord? t.token = some op) : Together Eq (d.atom t op) (d.atom t' op) := by
  cases op with
  | comparison op => exact hd.comparison h op
  | membership negated => exact hd.membership h negated
  | nullity isNull =>
    unfold Dialog.atom
    exact hd.columnTest h fun column path => .pure rfl
  | blankness isBlank => exact hd.columnTest h (hd.blankness isBlank)
  | text op => exact hd.textTest h hop
  | all | any | negation | choice => exact .throw

/-- Terms that are alike are compiled to the same predicate. -/
theorem Oblivious.predicate (hd : d.Oblivious) (h : alike t t' = true) :
    Together Eq (d.predicate t) (d.predicate t') := by
  induction t using Term.induction generalizing t' with
  | node token quote children ih =>
    obtain ⟨token', quote', children'⟩ := t'
    obtain rfl : token = token' := Term.token_eq_of_alike h
    refine predicate_congr Together.congruence rfl rfl (fun op hop hconnective => ?_)
      fun op hop => hd.atom h hop
    -- connectives take no literals, so that their arguments are alike
    have hbinds : Term.bindsLiterals token = false := by
      rw [Term.bindsLiterals, hop]
      exact Operator.bindsLiterals_of_isConnective hconnective
    have hboth := (List.forall₂_and_left children children').2
      ⟨@ih, Term.forall₂_children_of_alike h hbinds⟩
    exact hboth.imp fun c c' hc => hc.1 hc.2

theorem Oblivious.predicate_self (hd : d.Oblivious) (t : Term) :
    Together Eq (d.predicate t) (d.predicate t) := hd.predicate (Term.alike_refl t)

theorem Oblivious.predicates (hd : d.Oblivious) {ts ts' : List Term}
    (h : List.Forall₂ (fun t t' => alike t t' = true) ts ts') :
    Together Eq (d.predicates ts) (d.predicates ts') :=
  predicates_congr Together.congruence (h.imp fun _ _ ht => hd.predicate ht)

end Dialog
end ResourceQuery

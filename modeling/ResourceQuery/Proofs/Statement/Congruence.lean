import Mathlib.Data.List.Forall2
import ResourceQuery.Proofs.Statement.Columns
import ResourceQuery.Proofs.Statement.Expression

set_option autoImplicit false

/-!
# Statements: comparisons of runs

A comparison of steps that holds of results, faults and look-ups and goes
through sequences goes through the whole compiler.  Two targets that compare in
the columns that they resolve and in the atoms of filter terms compare in all
predicates, expressions and lists of columns.

The compilers are traversed once, for an arbitrary comparison.  The two
comparisons in use, `Build.Together` and `Build.Matches`, are instances.
-/

namespace ResourceQuery

namespace Build

variable {σ : Type}

/-- A comparison of steps by the relation of their results, with a clause for
each way in which steps are made from others. -/
structure Congruence (Rel : ∀ {α α' : Type}, (α → α' → Prop) → Build σ α → Build σ α' → Prop) :
    Prop where
  pure : ∀ {α α' : Type} {S : α → α' → Prop} {a : α} {a' : α'}, S a a' →
    Rel S (pure a) (pure a')
  bind : ∀ {α α' β β' : Type} {S : α → α' → Prop} {T : β → β' → Prop} {m : Build σ α}
    {m' : Build σ α'} {k : α → Build σ β} {k' : α' → Build σ β'}, Rel S m m' →
    (∀ a a', S a a' → Rel T (k a) (k' a')) → Rel T (m >>= k) (m' >>= k')
  throw : ∀ {α α' : Type} {S : α → α' → Prop} {fault fault' : Fault},
    Rel S (throw fault) (throw fault')
  lookup : ∀ {α : Type} (x : Except Fault α), Rel Eq (lookup x) (lookup x)

namespace Congruence

variable {Rel : ∀ {α α' : Type}, (α → α' → Prop) → Build σ α → Build σ α' → Prop}
  {α α' β β' : Type}

/-- One step for each element of two lists. -/
theorem mapM (hrel : Congruence @Rel) {T : β → β' → Prop} {f : α → Build σ β}
    {f' : α' → Build σ β'} {xs : List α} {xs' : List α'}
    (h : List.Forall₂ (fun x x' => Rel T (f x) (f' x')) xs xs') :
    Rel (List.Forall₂ T) (xs.mapM f) (xs'.mapM f') := by
  induction h with
  | nil =>
    rw [List.mapM_nil, List.mapM_nil]
    exact hrel.pure .nil
  | cons hx _ ih =>
    rw [List.mapM_cons, List.mapM_cons]
    exact hrel.bind hx fun y y' hy => hrel.bind ih fun ys ys' hys => hrel.pure (.cons hy hys)

theorem mapM_eq (hrel : Congruence @Rel) {f : α → Build σ β} {f' : α' → Build σ β}
    {xs : List α} {xs' : List α'} (h : List.Forall₂ (fun x x' => Rel Eq (f x) (f' x')) xs xs') :
    Rel Eq (xs.mapM f) (xs'.mapM f') := by
  have hmapM := hrel.mapM h
  rwa [List.forall₂_eq_eq_eq] at hmapM

end Congruence
end Build

namespace Dialog

open Build (Congruence)

variable {σ C : Type} {Rel : ∀ {α α' : Type}, (α → α' → Prop) → Build σ α → Build σ α' → Prop}
  {d d' : Dialog σ C}

/-! ## Predicates -/

/-- Lists of terms compare if their terms do. -/
theorem predicates_congr (hrel : Congruence @Rel) {ts ts' : List Term}
    (h : List.Forall₂ (fun t t' => Rel Eq (d.predicate t) (d'.predicate t')) ts ts') :
    Rel Eq (d.predicates ts) (d'.predicates ts') := by
  rw [predicates_eq_mapM, predicates_eq_mapM]
  exact hrel.mapM_eq h

/-- The predicates of two terms of one operator compare if the conditions that
it connects do, or the atoms that it makes. -/
theorem predicate_congr (hrel : Congruence @Rel) (hdeciding : d.deciding = d'.deciding)
    {token token' : String} {quote quote' : Option Quote} {ts ts' : List Term}
    (hop : Operator.ofWord? token = Operator.ofWord? token')
    (hconditions : ∀ op, Operator.ofWord? token = some op → op.isConnective = true →
      List.Forall₂ (fun t t' => Rel Eq (d.predicate t) (d'.predicate t')) ts ts')
    (hatom : ∀ op, Operator.ofWord? token = some op →
      Rel Eq (d.atom (.node token quote ts) op) (d'.atom (.node token' quote' ts') op)) :
    Rel Eq (d.predicate (.node token quote ts)) (d'.predicate (.node token' quote' ts')) := by
  rw [predicate.eq_def, predicate.eq_def d']
  dsimp only
  rw [← hop, ← hdeciding]
  cases hword : Operator.ofWord? token with
  | none => exact hrel.throw
  | some op =>
    cases op with
    | all =>
      cases hconditions .all hword rfl with
      | nil => exact hrel.throw
      | cons ht hts =>
        exact hrel.bind (predicates_congr hrel (.cons ht hts)) fun qs qs' hqs =>
          hrel.pure (by rw [hqs])
    | any =>
      cases hconditions .any hword rfl with
      | nil => exact hrel.throw
      | cons ht hts =>
        exact hrel.bind (predicates_congr hrel (.cons ht hts)) fun qs qs' hqs =>
          hrel.pure (by rw [hqs])
    | negation =>
      rcases hconditions .negation hword rfl with _ | ⟨hinner, _ | ⟨_, _⟩⟩
      · exact hrel.throw
      · exact hrel.bind hinner fun q q' hq => hrel.pure (by rw [hq])
      · exact hrel.throw
    | choice =>
      have hresults := hconditions .choice hword rfl
      cases d.deciding with
      | refused alternatives => exact hrel.throw
      | conditional =>
        rcases hresults with _ | ⟨hc, _ | ⟨ht, _ | ⟨hf, _ | ⟨_, _⟩⟩⟩⟩
        · exact hrel.throw
        · exact hrel.throw
        · exact hrel.throw
        · refine hrel.bind hc fun c c' hcc => hrel.bind ht fun t t' htt => ?_
          exact hrel.bind hf fun f f' hff => hrel.pure (by rw [hcc, htt, hff])
        · exact hrel.throw
      | connectives =>
        -- the condition is compiled twice, and compares both times
        rcases hresults with _ | ⟨hc, _ | ⟨ht, _ | ⟨hf, _ | ⟨_, _⟩⟩⟩⟩
        · exact hrel.throw
        · exact hrel.throw
        · exact hrel.throw
        · refine hrel.bind hc fun c c' hcc => hrel.bind ht fun t t' htt => ?_
          refine hrel.bind hc fun again again' hagain => hrel.bind hf fun f f' hff => ?_
          exact hrel.pure (by rw [hcc, htt, hagain, hff])
        · exact hrel.throw
    | comparison _ | membership _ | nullity _ | blankness _ | text _ => exact hatom _ hword

/-! ## Columns -/

variable {star : Bool → Term → Option (Expression C)}

theorem branch_congr (hrel : Congruence @Rel) {t : Term} {e e' : Build σ (Expression C)}
    (he : Rel Eq e e') : Rel Eq (branch t e) (branch t e') := by
  unfold branch
  split
  · exact hrel.pure rfl
  · exact he

theorem columnExpression_congr (hrel : Congruence @Rel)
    (hresolve : ∀ path, Rel Eq (d.resolve path) (d'.resolve path)) (t : Term) :
    Rel Eq (d.columnExpression t) (d'.columnExpression t) := by
  unfold columnExpression
  split
  · exact hrel.bind (S := fun _ _ => False) hrel.throw fun _ _ h => h.elim
  · exact hrel.bind (hresolve t.token) fun found found' hfound => hrel.pure (by rw [hfound])

/-- Expressions compare if columns and the conditions of choices do. -/
theorem expression_congr (hrel : Congruence @Rel)
    (hresolve : ∀ path, Rel Eq (d.resolve path) (d'.resolve path))
    (hpredicate : ∀ t, Rel Eq (d.predicate t) (d'.predicate t)) (inside : Bool) (t : Term) :
    Rel Eq (d.expression star inside t) (d'.expression star inside t) := by
  induction t using Term.induction generalizing inside with
  | node token quote children ih =>
    rw [expression.eq_def, expression.eq_def d']
    dsimp only
    cases star inside (.node token quote children) with
    | some whole => exact hrel.pure rfl
    | none =>
      cases children with
      | nil => exact columnExpression_congr hrel hresolve _
      | cons child children =>
        dsimp only
        cases Aggregate.ofWord? token with
        | some function =>
          cases children with
          | nil =>
            exact hrel.bind (ih child List.mem_cons_self true) fun e e' he =>
              hrel.pure (by rw [he])
          | cons _ _ => exact hrel.throw
        | none =>
          dsimp only
          split
          · rcases children with _ | ⟨whenTrue, _ | ⟨whenFalse, _ | ⟨_, _⟩⟩⟩
            · exact hrel.throw
            · exact hrel.throw
            · refine hrel.bind (hpredicate child) fun c c' hc => ?_
              refine hrel.bind (branch_congr hrel (ih whenTrue (by simp) false)) fun t t' ht => ?_
              refine hrel.bind (branch_congr hrel (ih whenFalse (by simp) false)) fun f f' hf => ?_
              exact hrel.pure (by rw [hc, ht, hf])
            · exact hrel.throw
          · exact hrel.throw

theorem columns_congr (hrel : Congruence @Rel)
    (hresolve : ∀ path, Rel Eq (d.resolve path) (d'.resolve path)) (ts : List Term) :
    Rel Eq (d.columns ts) (d'.columns ts) := by
  rw [columns_eq_mapM, columns_eq_mapM]
  refine hrel.mapM_eq (List.forall₂_same.2 fun t _ => ?_)
  refine hrel.bind (hrel.lookup _) fun path path' hpath => ?_
  subst hpath
  exact hrel.bind (hresolve path) fun found found' hfound => hrel.pure (by rw [hfound])

theorem groups_congr (hrel : Congruence @Rel)
    (hresolve : ∀ path, Rel Eq (d.resolve path) (d'.resolve path)) (ts : List Term) :
    Rel Eq (d.groups ts) (d'.groups ts) := by
  rw [groups_eq_mapM, groups_eq_mapM]
  refine hrel.mapM_eq (List.forall₂_same.2 fun t _ => ?_)
  exact hrel.bind (hresolve t.token) fun found found' hfound => hrel.pure (by rw [hfound])

theorem computed_congr (hrel : Congruence @Rel)
    (hresolve : ∀ path, Rel Eq (d.resolve path) (d'.resolve path))
    (hpredicate : ∀ t, Rel Eq (d.predicate t) (d'.predicate t)) (cs : List Computed) :
    Rel Eq (d.computed star cs) (d'.computed star cs) := by
  rw [computed_eq_mapM, computed_eq_mapM]
  refine hrel.mapM_eq (List.forall₂_same.2 fun c _ => ?_)
  exact hrel.bind (expression_congr hrel hresolve hpredicate false c.expression)
    fun e e' he => hrel.pure (by rw [he])

end Dialog
end ResourceQuery

import ResourceQuery.Proofs.Statement.Predicate
import ResourceQuery.Statement.Expression

set_option autoImplicit false

/-!
# Statements: what the compiler of computed columns can do

The runs for computed columns, form by form, and those for lists of columns.

`run_of_expression` says all that the compiler of expressions can do; the later
inductions over computed columns go by its cases.  `Accounts` follows every word
of a term into what is written for it.
-/

namespace ResourceQuery

theorem Expression.ofStar_eq_some {C : Type} {e e' : Expression C} {taken : Bool} {t : Term}
    (h : e.ofStar taken t = some e') :
    e' = e ∧ taken = true ∧ t.isLeaf = true ∧ t.token = "*" := by
  unfold ofStar at h
  split at h
  · next hstar =>
    obtain ⟨hboth, htoken⟩ := Bool.and_eq_true_iff.1 hstar
    obtain ⟨htaken, hleaf⟩ := Bool.and_eq_true_iff.1 hboth
    exact ⟨(Option.some.inj h).symm, htaken, hleaf, of_decide_eq_true htoken⟩
  · cases h

theorem Expression.isLeaf_of_ofStar {C : Type} {e e' : Expression C} {taken : Bool} {t : Term}
    (h : e.ofStar taken t = some e') : t.isLeaf = true :=
  (ofStar_eq_some h).2.2.1

namespace Dialog

open Build (Each)

variable {σ C : Type} (d : Dialog σ C) (star : Bool → Term → Option (Expression C))

/-- The runs for expressions. -/
inductive ExpressionRun : Bool → Term → Progress σ → Expression C → Progress σ → Prop where
  | whole {inside : Bool} {t : Term} {e : Expression C} {p : Progress σ}
      (hstar : star inside t = some e) : ExpressionRun inside t p e p
  | column {inside : Bool} {token : String} {p p' : Progress σ} {c : C} {property : Property}
      (hstar : star inside (.node token none []) = none)
      (hresolve : d.resolve token p = .ok ((c, property), p')) :
      ExpressionRun inside (.node token none []) p (.column c) p'
  | aggregate {inside : Bool} {token : String} {quote : Option Quote} {argument : Term}
      {function : Aggregate} {p p' : Progress σ} {e : Expression C}
      (hstar : star inside (.node token quote [argument]) = none)
      (hfunction : Aggregate.ofWord? token = some function)
      (hargument : d.expression star true argument p = .ok (e, p')) :
      ExpressionRun inside (.node token quote [argument]) p (.aggregate function e) p'
  | choice {inside : Bool} {token : String} {quote : Option Quote}
      {condition whenTrue whenFalse : Term} {p p₁ p₂ p₃ : Progress σ} {c : Predicate C}
      {t f : Expression C}
      (hstar : star inside (.node token quote [condition, whenTrue, whenFalse]) = none)
      (hfunction : Aggregate.ofWord? token = none) (hif : Text.lower token = "if")
      (hc : d.predicate condition p = .ok (c, p₁))
      (ht : branch whenTrue (d.expression star false whenTrue) p₁ = .ok (t, p₂))
      (hf : branch whenFalse (d.expression star false whenFalse) p₂ = .ok (f, p₃)) :
      ExpressionRun inside (.node token quote [condition, whenTrue, whenFalse]) p
        (.choice c t f) p₃

variable {d} {star} {t : Term} {p p' : Progress σ} {e : Expression C}

/-- A column that stands for itself is found by its path. -/
theorem columnExpression_ok (h : d.columnExpression t p = .ok (e, p')) :
    t.quote = none ∧ ∃ c property, d.resolve t.token p = .ok ((c, property), p') ∧
      .column c = e := by
  unfold columnExpression at h
  split at h
  · obtain ⟨_, _, hthrow, _⟩ := Build.bind_ok_iff.1 h
    exact absurd hthrow Build.throw_ne_ok
  · next hquoted =>
    obtain ⟨⟨c, property⟩, hresolve, rfl⟩ := Build.bind_pure_ok_iff.1 h
    refine ⟨?_, c, property, hresolve, rfl⟩
    simpa [Term.isQuoted] using hquoted

theorem lower_ne_of_aggregate {token : String} {function : Aggregate}
    (h : Aggregate.ofWord? token = some function) : Text.lower token ≠ "if" := by
  intro hif
  have hnone : (Aggregate.words.find? fun w => w.1 == "if").map Prod.snd = none := by decide
  rw [Aggregate.ofWord?, hif, hnone] at h
  cases h

/-- A result of a choice is a numeral, or it is compiled as an expression. -/
theorem branch_ok {expression : Build σ (Expression C)}
    (h : branch t expression p = .ok (e, p')) :
    (isNumeral t = true ∧ .numeral t.token = e ∧ p = p') ∨
      (isNumeral t = false ∧ expression p = .ok (e, p')) := by
  unfold branch at h
  split at h
  · next hnumeral => exact .inl ⟨hnumeral, Build.pure_ok_iff.1 h⟩
  · next hnumeral => exact .inr ⟨by simpa using hnumeral, h⟩

/-- Every run for an expression is of one of the forms. -/
theorem run_of_expression {inside : Bool} (h : d.expression star inside t p = .ok (e, p')) :
    d.ExpressionRun star inside t p e p' := by
  obtain ⟨token, quote, children⟩ := t
  rw [expression.eq_def] at h
  dsimp only at h
  cases hstar : star inside (.node token quote children) with
  | some whole =>
    rw [hstar] at h
    obtain ⟨rfl, rfl⟩ := Build.pure_ok_iff.1 h
    exact .whole hstar
  | none =>
    rw [hstar] at h
    cases children with
    | nil =>
      obtain ⟨hquote, c, property, hresolve, rfl⟩ := columnExpression_ok h
      obtain rfl : quote = none := hquote
      exact .column hstar hresolve
    | cons child children =>
      dsimp only at h
      cases hfunction : Aggregate.ofWord? token with
      | some function =>
        rw [hfunction] at h
        match children, h with
        | [], h =>
          obtain ⟨argument, hargument, rfl⟩ := Build.bind_pure_ok_iff.1 h
          exact .aggregate hstar hfunction hargument
        | _ :: _, h => exact absurd h Build.throw_ne_ok
      | none =>
        rw [hfunction] at h
        dsimp only at h
        split at h
        · next hif =>
          match children, h with
          | [whenTrue, whenFalse], h =>
            obtain ⟨c, p₁, hc, h⟩ := Build.bind_ok_iff.1 h
            obtain ⟨t, p₂, ht, h⟩ := Build.bind_ok_iff.1 h
            obtain ⟨f, hf, rfl⟩ := Build.bind_pure_ok_iff.1 h
            exact .choice hstar hfunction hif hc ht hf
          | [], h | [_], h | _ :: _ :: _ :: _, h => exact absurd h Build.throw_ne_ok
        · exact absurd h Build.throw_ne_ok

/-! ## Lists of columns -/

/-- The column of a term that is asked for by name. -/
def columnByPath (d : Dialog σ C) (t : Term) : Build σ (String × C × Property) := do
  let path ← Build.lookup t.path
  let (column, property) ← d.resolve path
  return (path, column, property)

theorem columns_eq_mapM (ts : List Term) : d.columns ts = ts.mapM d.columnByPath := by
  induction ts with
  | nil => rw [columns, List.mapM_nil]
  | cons t ts ih =>
    rw [columns, List.mapM_cons, ih]
    simp only [columnByPath, bind_assoc, pure_bind]

/-- The column to group by. -/
def columnByToken (d : Dialog σ C) (t : Term) : Build σ C := do
  let (column, _) ← d.resolve t.token
  return column

theorem groups_eq_mapM (ts : List Term) : d.groups ts = ts.mapM d.columnByToken := by
  induction ts with
  | nil => rw [groups, List.mapM_nil]
  | cons t ts ih =>
    rw [groups, List.mapM_cons, ih]
    simp only [columnByToken, bind_assoc, pure_bind]

/-- The expression of a computed column, with the column. -/
def computedColumn (d : Dialog σ C) (star : Bool → Term → Option (Expression C))
    (c : Computed) : Build σ (Computed × Expression C) := do
  let e ← d.expression star false c.expression
  return (c, e)

theorem computed_eq_mapM (cs : List Computed) :
    d.computed star cs = cs.mapM (d.computedColumn star) := by
  induction cs with
  | nil => rw [computed, List.mapM_nil]
  | cons c cs ih =>
    rw [computed, List.mapM_cons, ih]
    simp only [computedColumn, bind_assoc, pure_bind]

/-! ## What the words of a term become -/

/-- Where a term stands in a computed column. -/
inductive Place where
  /-- By itself. -/
  | whole
  /-- Inside an aggregate. -/
  | argument
  /-- As a result of a choice. -/
  | result
  deriving DecidableEq, Repr

/-- The place is inside an aggregate. -/
def Place.inside (place : Place) : Bool := place = .argument

/-- How the words of a term are accounted for in its expression: a result that
is a bare numeral stands for itself, and any other word is one for whole rows,
the name of a function, or the path of a column. -/
inductive Accounts (d : Dialog σ C) (star : Bool → Term → Option (Expression C)) :
    Place → Term → Expression C → Prop where
  | numeral {t : Term} (h : isNumeral t = true) : Accounts d star .result t (.numeral t.token)
  | rows {place : Place} {t : Term} {e : Expression C}
      (hplace : place = .result → isNumeral t = false) (h : star place.inside t = some e) :
      Accounts d star place t e
  | column {place : Place} {token : String} {p p' : Progress σ} {c : C} {property : Property}
      (hplace : place = .result → isNumeral (.node token none []) = false)
      (h : d.resolve token p = .ok ((c, property), p')) :
      Accounts d star place (.node token none []) (.column c)
  | aggregate {place : Place} {token : String} {quote : Option Quote} {argument : Term}
      {function : Aggregate} {e : Expression C} (hfunction : Aggregate.ofWord? token = some function)
      (h : Accounts d star .argument argument e) :
      Accounts d star place (.node token quote [argument]) (.aggregate function e)
  | choice {place : Place} {token : String} {quote : Option Quote}
      {condition whenTrue whenFalse : Term} {p p' : Progress σ} {c : Predicate C}
      {t f : Expression C} (hif : Text.lower token = "if")
      (hc : d.predicate condition p = .ok (c, p')) (ht : Accounts d star .result whenTrue t)
      (hf : Accounts d star .result whenFalse f) :
      Accounts d star place (.node token quote [condition, whenTrue, whenFalse]) (.choice c t f)

/-- The compiler of expressions accounts for all words. -/
theorem accounts_expression (t : Term) : ∀ (place : Place) {p p' : Progress σ} {e : Expression C},
    (place = .result → isNumeral t = false) → d.expression star place.inside t p = .ok (e, p') →
      d.Accounts star place t e := by
  induction t using Term.induction with
  | node token quote children ih =>
    intro place p p' e hplace h
    have hbranch : ∀ t ∈ children, ∀ {p p' : Progress σ} {e : Expression C},
        branch t (d.expression star false t) p = .ok (e, p') → d.Accounts star .result t e := by
      intro t ht p p' e h
      rcases branch_ok h with ⟨hnumeral, rfl, _⟩ | ⟨hnumeral, h⟩
      · exact .numeral hnumeral
      · exact ih t ht .result (fun _ => hnumeral) h
    cases run_of_expression h with
    | whole hwhole => exact .rows hplace hwhole
    | column _ hresolve => exact .column hplace hresolve
    | aggregate _ hfunction hargument =>
      exact .aggregate hfunction (ih _ (List.mem_singleton_self _) .argument (fun h => by cases h)
        hargument)
    | choice _ _ hif hc ht hf =>
      exact .choice hif hc (hbranch _ (by simp) ht) (hbranch _ (by simp) hf)

end Dialog
end ResourceQuery

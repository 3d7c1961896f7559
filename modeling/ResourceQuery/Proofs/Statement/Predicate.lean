import ResourceQuery.Proofs.Statement.Build
import ResourceQuery.Proofs.Term.Induction
import ResourceQuery.Statement.Predicate

set_option autoImplicit false

/-!
# Statements: what the compiler of predicates can do

Each run of the compiler of predicates that comes to a result is of one of a few
forms: those of a term that holds other terms, and those of a term about a
column.  They are stated here once, with all that is known in each of them.

Later proofs go by the cases of `Run` and `AtomRun`, and never unfold the
compiler. Each case has the states between the steps, so properties of steps can
be put together along it.
-/

namespace ResourceQuery

/-! ## Words -/

/-- The letter case of a word does not matter. -/
theorem Operator.ofWord?_congr {a b : String} (h : Text.lower a = Text.lower b) :
    ofWord? a = ofWord? b := by
  rw [ofWord?, ofWord?, h]

theorem Term.ofWord?_of_hasToken {t : Term} {word : String} (h : t.hasToken word = true) :
    Operator.ofWord? t.token = Operator.ofWord? word := by
  rw [hasToken, Bool.and_eq_true] at h
  exact Operator.ofWord?_congr ((Text.sameWord_iff _ _).1 h.2)

namespace Dialog

open Build (Each)

variable {σ C : Type} (d : Dialog σ C)

/-- The term is about the column `c`, by the path that it names it by. -/
structure Addresses (t : Term) (p : Progress σ) (path : String) (c : C) (property : Property)
    (p' : Progress σ) : Prop where
  path_eq : t.column = .ok path
  resolves : d.resolve path p = .ok ((c, property), p')

/-- Binds the literal of a term as a value of the property. -/
def bindLiteral (path : String) (property : Property) (value : Term) : Build σ Nat := do
  let bound ← Build.lookup (Value.cast property value)
  Build.bind path bound

/-- Tests a column against the text of a term. -/
def testLiteral (op : TextOperator) (c : C) (path : String) (value : Term) :
    Build σ (Predicate C) := do
  let text ← Build.lookup (value.literal path)
  d.test op c path text

/-- The runs for terms about a column. -/
inductive AtomRun (t : Term) (p : Progress σ) : Operator → Predicate C → Progress σ → Prop where
  | isNull {path : String} {c : C} {property : Property} {p' : Progress σ} {value : Term}
      (ha : d.Addresses t p path c property p') (hv : t.value = .ok value)
      (hnull : value.isNull = true) :
      AtomRun t p (.comparison .eq) (.nullity true c) p'
  | isNotNull {path : String} {c : C} {property : Property} {p' : Progress σ} {value : Term}
      (ha : d.Addresses t p path c property p') (hv : t.value = .ok value)
      (hnull : value.isNull = true) :
      AtomRun t p (.comparison .ne) (.nullity false c) p'
  | like {path : String} {c : C} {property : Property} {p' p'' : Progress σ} {value : Term}
      {q : Predicate C} (ha : d.Addresses t p path c property p') (hv : t.value = .ok value)
      (hnull : value.isNull = false) (hpattern : value.isPattern = true)
      (htest : d.test .like c path value.token p' = .ok (q, p'')) :
      AtomRun t p (.comparison .eq) q p''
  | unlike {path : String} {c : C} {property : Property} {p' p'' : Progress σ} {value : Term}
      {q : Predicate C} (ha : d.Addresses t p path c property p') (hv : t.value = .ok value)
      (hnull : value.isNull = false) (hpattern : value.isPattern = true)
      (htest : d.test .like c path value.token p' = .ok (q, p'')) :
      AtomRun t p (.comparison .ne) (d.unlike q) p''
  | compared {path : String} {c : C} {property : Property} {p' p'' : Progress σ} {value : Term}
      {marker : Nat} (op : Comparison) (ha : d.Addresses t p path c property p')
      (hv : t.value = .ok value) (hnull : value.isNull = false)
      (hpattern : value.isPattern = true → op ≠ .eq ∧ op ≠ .ne)
      (hbind : bindLiteral path property value p' = .ok (marker, p'')) :
      AtomRun t p (.comparison op) (.comparison op c marker) p''
  | among {path : String} {c : C} {property : Property} {p' p'' : Progress σ}
      {values : List Term} {markers : List Nat} (negated : Bool)
      (ha : d.Addresses t p path c property p') (hvs : t.values = .ok values)
      (hbind : Each (bindLiteral path property) values p' markers p'') :
      AtomRun t p (.membership negated)
        (if negated then d.outside c markers else .membership false c markers) p''
  | nullity {path : String} {c : C} {property : Property} {p' : Progress σ} (isNull : Bool)
      (hlength : t.children.length = 1) (ha : d.Addresses t p path c property p') :
      AtomRun t p (.nullity isNull) (.nullity isNull c) p'
  | blankness {path : String} {c : C} {property : Property} {p' p'' : Progress σ}
      {q : Predicate C} (isBlank : Bool) (hlength : t.children.length = 1)
      (ha : d.Addresses t p path c property p')
      (hblank : d.blankness isBlank c path p' = .ok (q, p'')) :
      AtomRun t p (.blankness isBlank) q p''
  | text {path : String} {c : C} {property : Property} {p' p'' : Progress σ}
      {values : List Term} {parts : List (Predicate C)} (op : TextOperator)
      (hrefused : d.refused op = none) (ha : d.Addresses t p path c property p')
      (hvs : t.values = .ok values)
      (htests : Each (d.testLiteral op c path) values p' parts p'') :
      AtomRun t p (.text op) (if op = .lacks then .allOf parts else .anyOf parts) p''

/-- The runs for terms that hold other terms, and those for terms about a column. -/
inductive Run : Term → Progress σ → Predicate C → Progress σ → Prop where
  | all {token : String} {quote : Option Quote} {children : List Term} {p p' : Progress σ}
      {parts : List (Predicate C)} (hop : Operator.ofWord? token = some .all)
      (hne : children ≠ []) (hparts : Each d.predicate children p parts p') :
      Run (.node token quote children) p (.allOf parts) p'
  | any {token : String} {quote : Option Quote} {children : List Term} {p p' : Progress σ}
      {parts : List (Predicate C)} (hop : Operator.ofWord? token = some .any)
      (hne : children ≠ []) (hparts : Each d.predicate children p parts p') :
      Run (.node token quote children) p (.anyOf parts) p'
  | negation {token : String} {quote : Option Quote} {inner : Term} {p p' : Progress σ}
      {part : Predicate C} (hop : Operator.ofWord? token = some .negation)
      (hpart : d.predicate inner p = .ok (part, p')) :
      Run (.node token quote [inner]) p (.negation part) p'
  | conditional {token : String} {quote : Option Quote} {condition whenTrue whenFalse : Term}
      {p p₁ p₂ p₃ : Progress σ} {c t f : Predicate C}
      (hop : Operator.ofWord? token = some .choice) (hdeciding : d.deciding = .conditional)
      (hc : d.predicate condition p = .ok (c, p₁)) (ht : d.predicate whenTrue p₁ = .ok (t, p₂))
      (hf : d.predicate whenFalse p₂ = .ok (f, p₃)) :
      Run (.node token quote [condition, whenTrue, whenFalse]) p (.choice c t f) p₃
  | connectives {token : String} {quote : Option Quote} {condition whenTrue whenFalse : Term}
      {p p₁ p₂ p₃ p₄ : Progress σ} {c t again f : Predicate C}
      (hop : Operator.ofWord? token = some .choice) (hdeciding : d.deciding = .connectives)
      (hc : d.predicate condition p = .ok (c, p₁)) (ht : d.predicate whenTrue p₁ = .ok (t, p₂))
      (hagain : d.predicate condition p₂ = .ok (again, p₃))
      (hf : d.predicate whenFalse p₃ = .ok (f, p₄)) :
      Run (.node token quote [condition, whenTrue, whenFalse]) p
        (.any [.all [c, t], .all [.negation again, f]]) p₄
  | atom {t : Term} {op : Operator} {p p' : Progress σ} {q : Predicate C}
      (hop : Operator.ofWord? t.token = some op) (hatom : d.AtomRun t p op q p') : Run t p q p'

/-! ## Terms about a column -/

variable {d} {t : Term} {p p' : Progress σ} {q : Predicate C}

/-- A comparison is one with null, with a pattern or with a value. -/
theorem atomRun_of_comparison {op : Comparison} (h : d.comparison t op p = .ok (q, p')) :
    d.AtomRun t p (.comparison op) q p' := by
  unfold comparison at h
  obtain ⟨path, hpath, h⟩ := Build.lookup_bind_ok_iff.1 h
  obtain ⟨value, hvalue, h⟩ := Build.lookup_bind_ok_iff.1 h
  obtain ⟨⟨c, property⟩, p₁, hresolve, h⟩ := Build.bind_ok_iff.1 h
  have ha : d.Addresses t p path c property p₁ := ⟨hpath, hresolve⟩
  dsimp only at h
  split at h
  · next hnull =>
    split at h
    · obtain ⟨rfl, rfl⟩ := Build.pure_ok_iff.1 h
      exact .isNull ha hvalue hnull
    · obtain ⟨rfl, rfl⟩ := Build.pure_ok_iff.1 h
      exact .isNotNull ha hvalue hnull
    · exact absurd h Build.throw_ne_ok
  · next hnull =>
    have hnull : value.isNull = false := by simpa using hnull
    split at h
    · next hlike =>
      rw [hlike.2]
      exact .like ha hvalue hnull hlike.1 h
    · next hlike =>
      split at h
      · next hunlike =>
        obtain ⟨q', htest, rfl⟩ := Build.bind_pure_ok_iff.1 h
        rw [hunlike.2]
        exact .unlike ha hvalue hnull hunlike.1 htest
      · next hunlike =>
        obtain ⟨bound, hcast, h⟩ := Build.lookup_bind_ok_iff.1 h
        obtain ⟨marker, hbind, rfl⟩ := Build.bind_pure_ok_iff.1 h
        have hpattern : value.isPattern = true → op ≠ .eq ∧ op ≠ .ne := by
          intro hp
          exact ⟨fun hop => hlike ⟨hp, hop⟩, fun hop => hunlike ⟨hp, hop⟩⟩
        exact .compared op ha hvalue hnull hpattern
          (Build.lookup_bind_ok_iff.2 ⟨bound, hcast, hbind⟩)

/-- A membership binds its values one after the other. -/
theorem atomRun_of_membership {negated : Bool} (h : d.membership t negated p = .ok (q, p')) :
    d.AtomRun t p (.membership negated) q p' := by
  unfold membership at h
  obtain ⟨path, hpath, h⟩ := Build.lookup_bind_ok_iff.1 h
  obtain ⟨values, hvalues, h⟩ := Build.lookup_bind_ok_iff.1 h
  obtain ⟨⟨c, property⟩, p₃, hresolve, h⟩ := Build.bind_ok_iff.1 h
  obtain ⟨markers, hmarkers, rfl⟩ := Build.bind_pure_ok_iff.1 h
  exact .among negated ⟨hpath, hresolve⟩ hvalues (Build.mapM_ok_iff.1 hmarkers)

/-- A test of a column alone takes the column and hands it on. -/
theorem columnTest_ok {test : C → String → Build σ (Predicate C)}
    (h : d.columnTest t test p = .ok (q, p')) :
    t.children.length = 1 ∧ ∃ path c property p₁, d.Addresses t p path c property p₁ ∧
      test c path p₁ = .ok (q, p') := by
  unfold columnTest at h
  split at h
  · obtain ⟨_, _, hthrow, _⟩ := Build.bind_ok_iff.1 h
    exact absurd hthrow Build.throw_ne_ok
  · next hone =>
    obtain ⟨path, hpath, h⟩ := Build.lookup_bind_ok_iff.1 h
    obtain ⟨⟨c, property⟩, p₂, hresolve, h⟩ := Build.bind_ok_iff.1 h
    exact ⟨by simpa using hone, path, c, property, p₂, ⟨hpath, hresolve⟩, h⟩

/-- A test of texts is one test for each text: for `lacks` all of them have to
pass, for the other operators any. -/
theorem atomRun_of_textTest {op : TextOperator} (h : d.textTest t op p = .ok (q, p')) :
    d.AtomRun t p (.text op) q p' := by
  unfold textTest at h
  cases hrefused : d.refused op with
  | some alternatives =>
    rw [hrefused] at h
    exact absurd h Build.throw_ne_ok
  | none =>
    rw [hrefused] at h
    obtain ⟨path, hpath, h⟩ := Build.lookup_bind_ok_iff.1 h
    obtain ⟨values, hvalues, h⟩ := Build.lookup_bind_ok_iff.1 h
    obtain ⟨⟨c, property⟩, p₃, hresolve, h⟩ := Build.bind_ok_iff.1 h
    obtain ⟨parts, hparts, rfl⟩ := Build.bind_pure_ok_iff.1 h
    exact .text op hrefused ⟨hpath, hresolve⟩ hvalues (Build.mapM_ok_iff.1 hparts)

theorem atomRun_of_atom {op : Operator} (h : d.atom t op p = .ok (q, p')) :
    d.AtomRun t p op q p' := by
  cases op with
  | comparison op => exact atomRun_of_comparison h
  | membership negated => exact atomRun_of_membership h
  | nullity isNull =>
    rw [atom] at h
    obtain ⟨hlength, path, c, property, p₁, ha, htest⟩ := columnTest_ok h
    obtain ⟨rfl, rfl⟩ := Build.pure_ok_iff.1 htest
    exact .nullity isNull hlength ha
  | blankness isBlank =>
    obtain ⟨hlength, path, c, property, p₁, ha, htest⟩ := columnTest_ok h
    exact .blankness isBlank hlength ha htest
  | text op => exact atomRun_of_textTest h
  | all => exact absurd h Build.throw_ne_ok
  | any => exact absurd h Build.throw_ne_ok
  | negation => exact absurd h Build.throw_ne_ok
  | choice => exact absurd h Build.throw_ne_ok

/-! ## Terms that hold other terms -/

theorem predicates_eq_mapM (ts : List Term) : d.predicates ts = ts.mapM d.predicate := by
  induction ts with
  | nil => rw [predicates, List.mapM_nil]
  | cons t ts ih => rw [predicates, List.mapM_cons, ih]

/-- A list of terms is compiled term by term. -/
theorem predicates_ok_iff {ts : List Term} {qs : List (Predicate C)} :
    d.predicates ts p = .ok (qs, p') ↔ Each d.predicate ts p qs p' := by
  rw [predicates_eq_mapM, Build.mapM_ok_iff]

/-- Every run of the compiler of predicates is of one of the forms. -/
theorem run_of_predicate (h : d.predicate t p = .ok (q, p')) : d.Run t p q p' := by
  obtain ⟨token, quote, children⟩ := t
  rw [predicate.eq_def] at h
  dsimp only at h
  cases hop : Operator.ofWord? token with
  | none =>
    rw [hop] at h
    exact absurd h Build.throw_ne_ok
  | some op =>
    rw [hop] at h
    cases op with
    | all =>
      cases children with
      | nil => exact absurd h Build.throw_ne_ok
      | cons c cs =>
        obtain ⟨parts, hparts, rfl⟩ := Build.bind_pure_ok_iff.1 h
        exact .all hop (List.cons_ne_nil c cs) (predicates_ok_iff.1 hparts)
    | any =>
      cases children with
      | nil => exact absurd h Build.throw_ne_ok
      | cons c cs =>
        obtain ⟨parts, hparts, rfl⟩ := Build.bind_pure_ok_iff.1 h
        exact .any hop (List.cons_ne_nil c cs) (predicates_ok_iff.1 hparts)
    | negation =>
      match children, h with
      | [inner], h =>
        obtain ⟨part, hpart, rfl⟩ := Build.bind_pure_ok_iff.1 h
        exact .negation hop hpart
      | [], h | _ :: _ :: _, h => exact absurd h Build.throw_ne_ok
    | choice =>
      match hdeciding : d.deciding, children, h with
      | .refused alternatives, _, h => exact absurd h Build.throw_ne_ok
      | .conditional, [condition, whenTrue, whenFalse], h =>
        obtain ⟨c, p₁, hc, h⟩ := Build.bind_ok_iff.1 h
        obtain ⟨t, p₂, ht, h⟩ := Build.bind_ok_iff.1 h
        obtain ⟨f, hf, rfl⟩ := Build.bind_pure_ok_iff.1 h
        exact .conditional hop hdeciding hc ht hf
      | .connectives, [condition, whenTrue, whenFalse], h =>
        obtain ⟨c, p₁, hc, h⟩ := Build.bind_ok_iff.1 h
        obtain ⟨t, p₂, ht, h⟩ := Build.bind_ok_iff.1 h
        obtain ⟨again, p₃, hagain, h⟩ := Build.bind_ok_iff.1 h
        obtain ⟨f, hf, rfl⟩ := Build.bind_pure_ok_iff.1 h
        exact .connectives hop hdeciding hc ht hagain hf
      | .conditional, [], h | .conditional, [_], h | .conditional, [_, _], h
      | .conditional, _ :: _ :: _ :: _ :: _, h | .connectives, [], h | .connectives, [_], h
      | .connectives, [_, _], h | .connectives, _ :: _ :: _ :: _ :: _, h =>
        exact absurd h Build.throw_ne_ok
    | comparison op => exact .atom hop (atomRun_of_comparison h)
    | membership negated => exact .atom hop (atomRun_of_membership h)
    | nullity isNull => exact .atom hop (atomRun_of_atom h)
    | blankness isBlank => exact .atom hop (atomRun_of_atom h)
    | text op => exact .atom hop (atomRun_of_textTest h)

/-! ## Terms with a known word -/

/-- The run for the word of an operator about a column. -/
theorem atomRun_of_word {op : Operator} (h : d.predicate t p = .ok (q, p'))
    (hop : Operator.ofWord? t.token = some op)
    (hatom : ∀ other ∈ [Operator.all, .any, .negation, .choice], other ≠ op) :
    d.AtomRun t p op q p' := by
  have hword : ∀ {op'}, Operator.ofWord? t.token = some op' → op' = op :=
    fun hop' => Option.some.inj (hop'.symm.trans hop)
  cases run_of_predicate h with
  | all hop' => exact absurd (hword hop') (hatom .all (by decide))
  | any hop' => exact absurd (hword hop') (hatom .any (by decide))
  | negation hop' => exact absurd (hword hop') (hatom .negation (by decide))
  | conditional hop' => exact absurd (hword hop') (hatom .choice (by decide))
  | connectives hop' => exact absurd (hword hop') (hatom .choice (by decide))
  | atom hop' hrun => exact hword hop' ▸ hrun

/-- The runs for the arguments of a disjunction. -/
theorem each_of_any (h : d.predicate t p = .ok (q, p'))
    (hop : Operator.ofWord? t.token = some .any) :
    t.children ≠ [] ∧ ∃ parts, q = .anyOf parts ∧ Each d.predicate t.children p parts p' := by
  have hword : ∀ {op'}, Operator.ofWord? t.token = some op' → op' = .any :=
    fun hop' => Option.some.inj (hop'.symm.trans hop)
  cases run_of_predicate h with
  | any _ hne hparts => exact ⟨hne, _, rfl, hparts⟩
  | all hop' => cases hword hop'
  | negation hop' => cases hword hop'
  | conditional hop' => cases hword hop'
  | connectives hop' => cases hword hop'
  | atom hop' hrun =>
    obtain rfl := hword hop'
    cases hrun

end Dialog
end ResourceQuery

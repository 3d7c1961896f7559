import ResourceQuery.Proofs.Sql.Filters

set_option autoImplicit false

/-!
# SQL: membership and equations

A database decides conditions in three-valued logic, where a comparison with
null is unknown.  A membership is compiled to `IN` with a marker for each value,
and an equation with `null` to a test for it.  So a membership is true where one
of the equations with its values is true, null excepted: it never finds columns
that have no value, not even when `null` is among the values.

The verdict on a predicate is defined for any database that compares values in
some way; nothing is assumed of the comparison.  Both sides are compiled with
the same dialog, so the proof compares the two predicates that come out, column
by column.
-/

namespace ResourceQuery.Sql

/-! ## Three-valued logic -/

/-- What a condition comes to; `none` is unknown. -/
abbrev Verdict := Option Bool

namespace Verdict

/-- Two conditions of which both hold. -/
def both : Verdict → Verdict → Verdict
  | some false, _ | _, some false => some false
  | some true, some true => some true
  | _, _ => none

/-- Two conditions of which either holds. -/
def either : Verdict → Verdict → Verdict
  | some true, _ | _, some true => some true
  | some false, some false => some false
  | _, _ => none

/-- A condition that is denied. -/
def deny (v : Verdict) : Verdict := v.map not

/-- Conditions that all hold. -/
def allOf (vs : List Verdict) : Verdict := vs.foldr both (some true)

/-- Conditions of which any holds. -/
def anyOf (vs : List Verdict) : Verdict := vs.foldr either (some false)

theorem either_false (v : Verdict) : either v (some false) = v := by
  rcases v with _ | _ | _ <;> rfl

/-- One true condition is enough, also beside an unknown one. -/
theorem either_eq_true_iff (v w : Verdict) :
    either v w = some true ↔ v = some true ∨ w = some true := by
  rcases v with _ | _ | _ <;> rcases w with _ | _ | _ <;> decide

theorem anyOf_eq_true_iff (vs : List Verdict) : anyOf vs = some true ↔ some true ∈ vs := by
  induction vs with
  | nil => exact iff_of_false (by decide) List.not_mem_nil
  | cons v vs ih =>
    have hcons : anyOf (v :: vs) = either v (anyOf vs) := rfl
    rw [hcons, either_eq_true_iff, ih, List.mem_cons, eq_comm]

end Verdict

/-- How a database compares what it stores, `X`, with values that are not null. -/
structure Database (X : Type) where
  compares : Comparison → X → Value → Bool
  likes : X → Value → Bool

variable {X : Type}

/-- The comparison of a column, which may have no value, with a value. -/
def Database.compare (db : Database X) (op : Comparison) (x : Option X) (v : Value) : Verdict :=
  if v = .null then none else x.map fun stored => db.compares op stored v

/-- The match of a column, which may have no value, with a pattern. -/
def Database.like (db : Database X) (x : Option X) (v : Value) : Verdict :=
  if v = .null then none else x.map fun stored => db.likes stored v

/-- The column has one of the values. -/
def Database.among (db : Database X) (x : Option X) (vs : List Value) : Verdict :=
  Verdict.anyOf (vs.map (db.compare .eq x))

mutual

/-- What a predicate comes to in a row, with the bound values in the places of markers. -/
def verdict (db : Database X) (row : Column → Option X) (values : Bindings) :
    Predicate Column → Verdict
  | .all parts => Verdict.allOf (verdicts db row values parts)
  | .any parts => Verdict.anyOf (verdicts db row values parts)
  | .negation part => Verdict.deny (verdict db row values part)
  | .choice c t f =>
    Verdict.either (Verdict.both (verdict db row values c) (verdict db row values t))
      (Verdict.both (Verdict.deny (verdict db row values c)) (verdict db row values f))
  | .comparison op c marker => db.compare op (row c) (values.at marker)
  | .membership negated c markers =>
    let found := db.among (row c) (markers.map values.at)
    if negated then Verdict.deny found else found
  | .nullity isNull c => some ((row c).isNone == isNull)
  | .blankness isBlank c _ =>
    if isBlank then Verdict.either (some (row c).isNone) (db.compare .eq (row c) (.text ""))
    else Verdict.both (some (row c).isSome) (db.compare .ne (row c) (.text ""))
  | .text _ negated c marker =>
    let found := db.like (row c) (values.at marker)
    if negated then Verdict.deny found else found

/-- What each predicate comes to. -/
def verdicts (db : Database X) (row : Column → Option X) (values : Bindings) :
    List (Predicate Column) → List Verdict
  | [] => []
  | part :: parts => verdict db row values part :: verdicts db row values parts

end

section Verdicts

variable (db : Database X) (row : Column → Option X) (values : Bindings)

theorem verdicts_eq_map (parts : List (Predicate Column)) :
    verdicts db row values parts = parts.map (verdict db row values) := by
  induction parts with
  | nil => rw [verdicts, List.map_nil]
  | cons part parts ih => rw [verdicts, ih, List.map_cons]

theorem verdict_anyOf (parts : List (Predicate Column)) :
    verdict db row values (.anyOf parts) =
      Verdict.anyOf (parts.map (verdict db row values)) := by
  unfold Predicate.anyOf
  split
  · exact (Verdict.either_false _).symm
  · rw [verdict, verdicts_eq_map]

end Verdicts

/-! ## Equations and memberships -/

/-- What an equation of a column with a literal comes to. -/
def Database.equates (db : Database X) (x : Option X) (property : Property) (v : Term) : Verdict :=
  if v.isNull then some x.isNone else db.compare .eq x (property.read v)

theorem read_of_isNull {property : Property} {v : Term} (h : v.isNull = true) :
    property.read v = .null := by
  have hleaf : v.isLeaf = true := (Bool.and_eq_true_iff.1 h).1
  rw [Property.read, Value.cast, hleaf, h]
  rfl

/-- Equations find what the membership finds, and with `null` among the values
also the columns that have no value. -/
theorem anyOf_equates_iff (db : Database X) (x : Option X) (property : Property) (vs : List Term) :
    Verdict.anyOf (vs.map (db.equates x property)) = some true ↔
      db.among x (vs.map property.read) = some true ∨
        x = none ∧ ∃ v ∈ vs, v.isNull = true := by
  rw [Database.among, Verdict.anyOf_eq_true_iff, Verdict.anyOf_eq_true_iff, List.map_map,
    List.mem_map, List.mem_map]
  constructor
  · rintro ⟨v, hv, hequates⟩
    unfold Database.equates at hequates
    cases hnull : v.isNull with
    | true =>
      rw [hnull, if_pos rfl] at hequates
      exact .inr ⟨Option.isNone_iff_eq_none.1 (Option.some.inj hequates), v, hv, hnull⟩
    | false =>
      rw [hnull, if_neg Bool.false_ne_true] at hequates
      exact .inl ⟨v, hv, hequates⟩
  · rintro (⟨v, hv, hcompare⟩ | ⟨rfl, v, hv, hnull⟩)
    · refine ⟨v, hv, ?_⟩
      unfold Database.equates
      cases hnull : v.isNull with
      | true =>
        have hcompare : db.compare .eq x (property.read v) = some true := hcompare
        rw [read_of_isNull hnull] at hcompare
        cases hcompare
      | false =>
        rw [if_neg Bool.false_ne_true]
        exact hcompare
    · refine ⟨v, hv, ?_⟩
      rw [Database.equates, hnull, if_pos rfl]
      rfl

/-- A column that has no value is in no list. -/
theorem among_none (db : Database X) (vs : List Value) : db.among none vs ≠ some true := by
  rw [Database.among, ne_eq, Verdict.anyOf_eq_true_iff, List.mem_map]
  rintro ⟨v, _, hcompare⟩
  unfold Database.compare at hcompare
  split at hcompare
  · cases hcompare
  · cases hcompare

/-! ## What the compiler gives -/

section Compiler

variable {catalog : Catalog} {root : Collection} {limit : Nat} {column : Term}
  {p p' : Progress Scope} {q : Predicate Column}

/-- Something that conditions may mean; what runs settle of columns does not depend on it. -/
def anyMeaning : Meaning Column :=
  ⟨fun _ _ _ => true, fun _ _ => true, fun _ => true, fun _ _ => true, fun _ _ _ => true⟩

/-- The column that a term is about is known from then on. -/
theorem settles_look {t : Term} {path : String} {c : Column} {property : Property}
    (h : (dialog catalog root limit).Addresses t p path c property p') :
    (dialog catalog root limit).look p path = some (c, property) ∧
      Settles Scope.Grows p p' fun f =>
        (dialog catalog root limit).look f path = some (c, property) := by
  refine ⟨?_, (dialog_truthful catalog root limit anyMeaning).resolve h.resolves⟩
  rw [Dialog.look, h.resolves]
  rfl

theorem later_of_predicate {t : Term}
    (h : (dialog catalog root limit).predicate t p = .ok (q, p')) : p.Later Scope.Grows p' :=
  (Dialog.settles_predicate (dialog_truthful catalog root limit anyMeaning) t h).later

theorem path_of_column {token path : String} {vs : List Term}
    (h : (Term.call token (column :: vs)).column = .ok path) : path = column.token := by
  unfold Term.column at h
  split at h
  · next hchildren =>
    obtain ⟨rfl, _⟩ := List.cons.inj hchildren
    split at h
    · exact (Except.ok.inj h).symm
    · cases h
  · cases h

/-- What an equation comes to is settled by its column and its literal. -/
theorem settles_equation (db : Database X) (row : Column → Option X) {v : Term}
    (hplain : v.isPattern = false)
    (h : (dialog catalog root limit).predicate (.call "eq" [column, v]) p = .ok (q, p')) :
    Settles Scope.Grows p p' fun f =>
      (dialog catalog root limit).look f column.token =
        (dialog catalog root limit).look p column.token ∧
      verdict db row f.values q = ((dialog catalog root limit).look f column.token).bind
        fun found => db.equates (row found.1) found.2 v := by
  have hop : Operator.ofWord? "eq" = some (.comparison .eq) := by decide
  cases Dialog.atomRun_of_word h hop (by decide) with
  | isNull ha hv hnull =>
    cases hv
    obtain rfl := path_of_column ha.path_eq
    obtain ⟨hlook, hsettles⟩ := settles_look ha
    refine hsettles.mono fun f hf => ⟨hf.trans hlook.symm, ?_⟩
    rw [hf, verdict, Option.bind_some, Database.equates, hnull, if_pos rfl, beq_true]
  | like _ hv _ hpattern _ =>
    cases hv
    exact absurd (hplain.symm.trans hpattern) Bool.false_ne_true
  | compared _ ha hv hnull _ hbind =>
    cases hv
    obtain rfl := path_of_column ha.path_eq
    obtain ⟨hlook, hsettles⟩ := settles_look ha
    refine (hsettles.trans Scope.growth (Dialog.settles_bindLiteral Scope.growth hbind)).mono ?_
    rintro f ⟨hf, hvalue⟩
    refine ⟨hf.trans hlook.symm, ?_⟩
    rw [hf, verdict, hvalue, Option.bind_some, Database.equates, hnull,
      if_neg Bool.false_ne_true]

/-- Equations that are joined by `or` come to one verdict for each value. -/
theorem verdict_of_equations (db : Database X) (row : Column → Option X) {vs : List Term}
    (hplain : ∀ v ∈ vs, v.isPattern = false)
    (h : (dialog catalog root limit).predicate
      (.call "or" (vs.map fun v => .call "eq" [column, v])) p = .ok (q, p')) :
    verdict db row p'.values q = Verdict.anyOf (vs.map fun v =>
      ((dialog catalog root limit).look p column.token).bind
        fun found => db.equates (row found.1) found.2 v) := by
  have hop : Operator.ofWord? "or" = some .any := by decide
  obtain ⟨hne, parts, rfl, hparts⟩ := Dialog.each_of_any h hop
  have hparts := Build.Each.of_map hparts
  have hsettles : Settles Scope.Grows p p' fun f => parts.map (verdict db row f.values) =
      vs.map fun v => ((dialog catalog root limit).look f column.token).bind
        fun found => db.equates (row found.1) found.2 v :=
    .each Scope.growth hparts fun v hv _ _ _ hrun =>
      (settles_equation db row (hplain v hv) hrun).mono fun _ hf => hf.2
  -- the first equation finds the column where the others find it
  have hlook : (dialog catalog root limit).look p' column.token =
      (dialog catalog root limit).look p column.token := by
    cases hparts with
    | nil => exact absurd rfl hne
    | cons hfirst hrest =>
      have hlater := Scope.growth.later_each hrest fun _ _ _ _ => later_of_predicate
      exact ((settles_equation db row (hplain _ List.mem_cons_self) hfirst).always p' hlater).1
  rw [verdict_anyOf, hsettles.always p' (Scope.growth.later_refl p'), hlook]

/-- A membership comes to the verdict of `IN` with its values. -/
theorem verdict_of_membership {vs : List Term}
    (h : (dialog catalog root limit).predicate (.call "in" (column :: vs)) p = .ok (q, p')) :
    ∃ c property, (dialog catalog root limit).look p column.token = some (c, property) ∧
      ∀ {X : Type} (db : Database X) (row : Column → Option X),
        verdict db row p'.values q = db.among (row c) (vs.map property.read) := by
  have hop : Operator.ofWord? "in" = some (.membership false) := by decide
  cases Dialog.atomRun_of_word h hop (by decide) with
  | @among path c property p₁ _ values markers _ ha hvs hbind =>
    obtain rfl := path_of_column ha.path_eq
    obtain rfl : vs = values := Term.tail_of_values hvs
    have hmarkers : Settles Scope.Grows p₁ p' fun f =>
        markers.map f.values.at = vs.map property.read :=
      .each Scope.growth hbind fun _ _ _ _ _ hk => Dialog.settles_bindLiteral Scope.growth hk
    refine ⟨c, property, (settles_look ha).1, fun db row => ?_⟩
    rw [← hmarkers.always p' (Scope.growth.later_refl p')]
    rfl

end Compiler

/-! ## Membership as equations -/

/-- A membership is true in the rows where one of the equations with its values
is, except that with `null` among the values the equations also find the rows
where the column has no value. -/
theorem membership_as_equations (catalog : Catalog) (root : Collection) (limit : Nat)
    (column : Term) (vs : List Term) (p p₁ p₂ : Progress Scope) (q₁ q₂ : Predicate Column)
    (hplain : ∀ v ∈ vs, v.isPattern = false)
    (h₁ : (dialog catalog root limit).predicate (.call "in" (column :: vs)) p = .ok (q₁, p₁))
    (h₂ : (dialog catalog root limit).predicate
      (.call "or" (vs.map fun v => .call "eq" [column, v])) p = .ok (q₂, p₂)) :
    ∃ c property, (dialog catalog root limit).look p column.token = some (c, property) ∧
      ∀ {X : Type} (db : Database X) (row : Column → Option X),
        (verdict db row p₂.values q₂ = some true ↔
          verdict db row p₁.values q₁ = some true ∨
            row c = none ∧ ∃ v ∈ vs, v.isNull = true) := by
  obtain ⟨c, property, hlook, hmembership⟩ := verdict_of_membership h₁
  refine ⟨c, property, hlook, fun db row => ?_⟩
  rw [verdict_of_equations db row hplain h₂, hmembership, hlook]
  exact anyOf_equates_iff db (row c) property vs

/-- Orders that may not have been shipped yet. -/
def shipments : Collection :=
  ⟨"shipments", none, [⟨"shipped", none, .date, true⟩], [], []⟩

/-- A day and `null`, as literals. -/
def dayOrNull : List Term := [.word "1996-07-16", .word "null"]

/-- The column of the day. -/
def shipped : Column := ⟨0, "shipped"⟩

theorem predicate_in_dayOrNull :
    (dialog ⟨[]⟩ shipments 5).predicate (.call "in" (.word "shipped" :: dayOrNull)) ⟨[], .start⟩ =
      .ok (.membership false shipped [1, 2],
        ⟨[("shipped", .text "1996-07-16"), ("shipped", .null)], .start⟩) := by
  rfl

theorem predicate_or_dayOrNull :
    (dialog ⟨[]⟩ shipments 5).predicate
      (.call "or" (dayOrNull.map fun v => .call "eq" [.word "shipped", v])) ⟨[], .start⟩ =
      .ok (.any [.comparison .eq shipped 1, .nullity true shipped],
        ⟨[("shipped", .text "1996-07-16")], .start⟩) := by
  rfl

theorem membership_as_equations_of_dayOrNull :
    (dialog ⟨[]⟩ shipments 5).look ⟨[], .start⟩ "shipped" =
      some (shipped, ⟨"shipped", none, .date, true⟩) ∧
    ∀ {X : Type} (db : Database X) (row : Column → Option X),
      (verdict db row [("shipped", .text "1996-07-16")]
          (.any [.comparison .eq shipped 1, .nullity true shipped]) = some true ↔
        verdict db row [("shipped", .text "1996-07-16"), ("shipped", .null)]
          (.membership false shipped [1, 2]) = some true ∨ row shipped = none) := by
  obtain ⟨c, property, hlook, hverdicts⟩ := membership_as_equations ⟨[]⟩ shipments 5
    (.word "shipped") dayOrNull _ _ _ _ _ (by decide) predicate_in_dayOrNull predicate_or_dayOrNull
  have hcolumn : (dialog ⟨[]⟩ shipments 5).look ⟨[], .start⟩ "shipped" =
      some (shipped, ⟨"shipped", none, .date, true⟩) := rfl
  obtain rfl : c = shipped := congrArg Prod.fst (Option.some.inj (hlook.symm.trans hcolumn))
  have hnull : ∃ v ∈ dayOrNull, v.isNull = true := ⟨.word "null", by decide, by decide⟩
  refine ⟨hcolumn, fun db row => (hverdicts db row).trans ?_⟩
  exact or_congr Iff.rfl (and_iff_left hnull)

/-- With `null` among the values, not all rows that the equations find are found
by the membership. -/
theorem not_membership_as_equations : ¬∀ (catalog : Catalog) (root : Collection) (limit : Nat)
    (column : Term) (vs : List Term) (p p₁ p₂ : Progress Scope) (q₁ q₂ : Predicate Column),
    vs ≠ [] → (∀ v ∈ vs, v.isLeaf = true) → (∀ v ∈ vs, v.isPattern = false) →
    (dialog catalog root limit).predicate (.call "in" (column :: vs)) p = .ok (q₁, p₁) →
    (dialog catalog root limit).predicate
      (.call "or" (vs.map fun v => .call "eq" [column, v])) p = .ok (q₂, p₂) →
    ∀ (X : Type) (db : Database X) (row : Column → Option X),
      (verdict db row p₁.values q₁ = some true ↔ verdict db row p₂.values q₂ = some true) := by
  intro h
  have hsame := h ⟨[]⟩ shipments 5 (.word "shipped") dayOrNull _ _ _ _ _ (by decide) (by decide)
    (by decide) predicate_in_dayOrNull predicate_or_dayOrNull
    Unit ⟨fun _ _ _ => true, fun _ _ => true⟩ fun _ => none
  have hequations : verdict (X := Unit) ⟨fun _ _ _ => true, fun _ _ => true⟩ (fun _ => none)
      [("shipped", .text "1996-07-16")]
      (.any [.comparison .eq shipped 1, .nullity true shipped]) = some true := rfl
  exact among_none _ _ (hsame.2 hequations)

end ResourceQuery.Sql

import ResourceQuery.Proofs.Statement.Markers

set_option autoImplicit false

/-!
# Statements: the markers among the pieces

The pieces of a predicate or an expression hold the same markers in the same
order. This needs two things of a target: that its predicates are of the forms
it has phrases for, and that its phrases for tests keep the markers.

The forms of predicates are a type of evidence (`Predicate.Fits`) that the
compiler is shown to respect; the writer of pieces is gone through by induction
on it.
-/

namespace ResourceQuery

variable {σ C : Type}

/-! ## Pieces -/

namespace Piece

/-- The number of a marker. -/
def marker? : Piece → Option Nat
  | marker index => some index
  | _ => none

/-- The numbers of the markers among the pieces, from left to right. -/
def markers (pieces : List Piece) : List Nat := pieces.filterMap marker?

@[simp] theorem markers_nil : markers [] = [] := rfl

@[simp] theorem markers_append (ps qs : List Piece) :
    markers (ps ++ qs) = markers ps ++ markers qs := List.filterMap_append

@[simp] theorem markers_fixed (text : String) (ps : List Piece) :
    markers (fixed text :: ps) = markers ps := rfl

@[simp] theorem markers_name (text : String) (ps : List Piece) :
    markers (name text :: ps) = markers ps := rfl

@[simp] theorem markers_table (index : Nat) (ps : List Piece) :
    markers (table index :: ps) = markers ps := rfl

@[simp] theorem markers_numeral (text : String) (ps : List Piece) :
    markers (numeral text :: ps) = markers ps := rfl

@[simp] theorem markers_field (index : Nat) (ps : List Piece) :
    markers (field index :: ps) = markers ps := rfl

@[simp] theorem markers_label (text : String) (ps : List Piece) :
    markers (label text :: ps) = markers ps := rfl

@[simp] theorem markers_marker (index : Nat) (ps : List Piece) :
    markers (marker index :: ps) = index :: markers ps := rfl

theorem join_cons_cons (glue : String) (part next : List Piece) (others : List (List Piece)) :
    join glue (part :: next :: others) = part ++ fixed glue :: join glue (next :: others) := rfl

/-- Between the parts that are joined there are no markers. -/
@[simp] theorem markers_join (glue : String) (parts : List (List Piece)) :
    markers (join glue parts) = parts.flatMap markers := by
  induction parts with
  | nil => rfl
  | cons part parts ih =>
    cases parts with
    | nil => simp [join]
    | cons next others =>
      rw [join_cons_cons, markers_append, markers_fixed, ih]
      simp only [List.flatMap_cons]

@[simp] theorem markers_clause (opening glue : String) (parts : List (List Piece)) :
    markers (clause opening glue parts) = parts.flatMap markers := by
  unfold clause
  split
  · next hempty => rw [List.isEmpty_iff.1 hempty]; rfl
  · rw [markers_fixed, markers_join]

end Piece

/-! ## The predicates that a target has -/

/-- The forms of the predicates of a target: `conditional` tells whether it has
conditional expressions, `blank` with which markers it tests for emptiness. -/
inductive Predicate.Fits (conditional : Prop) (blank : Option Nat → Prop) : Predicate C → Prop where
  | all {parts : List (Predicate C)} (h : ∀ q ∈ parts, Fits conditional blank q) :
      Fits conditional blank (.all parts)
  | any {parts : List (Predicate C)} (h : ∀ q ∈ parts, Fits conditional blank q) :
      Fits conditional blank (.any parts)
  | negation {part : Predicate C} (h : Fits conditional blank part) :
      Fits conditional blank (.negation part)
  | choice {c t f : Predicate C} (h : conditional) (hc : Fits conditional blank c)
      (ht : Fits conditional blank t) (hf : Fits conditional blank f) :
      Fits conditional blank (.choice c t f)
  | comparison (op : Comparison) (column : C) (marker : Nat) :
      Fits conditional blank (.comparison op column marker)
  | membership (negated : Bool) (column : C) (markers : List Nat) :
      Fits conditional blank (.membership negated column markers)
  | nullity (isNull : Bool) (column : C) : Fits conditional blank (.nullity isNull column)
  | blankness (isBlank : Bool) (column : C) {marker : Option Nat} (h : blank marker) :
      Fits conditional blank (.blankness isBlank column marker)
  | text (test : TextTest) (negated : Bool) (column : C) (marker : Nat) :
      Fits conditional blank (.text test negated column marker)

section Fits

variable {conditional : Prop} {blank : Option Nat → Prop}

theorem Predicate.Elementary.fits {c : C} {k : Nat} {q : Predicate C} (h : q.Elementary c k) :
    q.Fits conditional blank := by
  cases h with
  | comparison op => exact .comparison op c k
  | text test negated => exact .text test negated c k

theorem Predicate.Fits.allOf {parts : List (Predicate C)}
    (h : ∀ q ∈ parts, q.Fits conditional blank) : (allOf parts).Fits conditional blank := by
  unfold Predicate.allOf
  split
  · exact h _ (List.mem_singleton_self _)
  · exact .all h

theorem Predicate.Fits.anyOf {parts : List (Predicate C)}
    (h : ∀ q ∈ parts, q.Fits conditional blank) : (anyOf parts).Fits conditional blank := by
  unfold Predicate.anyOf
  split
  · exact h _ (List.mem_singleton_self _)
  · exact .any h

/-- What a target does in its own way stays within the forms. -/
structure Dialog.Fits (d : Dialog σ C) (conditional : Prop) (blank : Option Nat → Prop) :
    Prop where
  deciding : d.deciding = .conditional → conditional
  test : ∀ {op : TextOperator} {c : C} {path text : String} {p p' : Progress σ}
    {q : Predicate C}, d.test op c path text p = .ok (q, p') → q.Fits conditional blank
  unlike : ∀ {q : Predicate C}, q.Fits conditional blank → (d.unlike q).Fits conditional blank
  outside : ∀ (c : C) (markers : List Nat), (d.outside c markers).Fits conditional blank
  blankness : ∀ {isBlank : Bool} {c : C} {path : String} {p p' : Progress σ}
    {q : Predicate C}, d.blankness isBlank c path p = .ok (q, p') → q.Fits conditional blank

namespace Dialog

variable {d : Dialog σ C} {p p' : Progress σ}

/-- What one step keeps for each element holds of all that the elements give. -/
theorem forall_of_each {α β : Type} {f : α → Build σ β} {P : β → Prop} {xs : List α}
    {ys : List β} (h : Build.Each f xs p ys p')
    (hstep : ∀ x ∈ xs, ∀ (p p' : Progress σ) (y : β), f x p = .ok (y, p') → P y) :
    ∀ y ∈ ys, P y := by
  induction h with
  | nil => intro y hy; cases hy
  | @cons x xs p p' p'' y ys hx _ ih =>
    intro z hz
    rcases List.mem_cons.1 hz with rfl | hz
    · exact hstep x List.mem_cons_self p p' z hx
    · exact ih (fun x' hx' => hstep x' (List.mem_cons_of_mem x hx')) z hz

theorem AtomRun.fits (hd : d.Fits conditional blank) {t : Term} {op : Operator}
    {q : Predicate C} (h : d.AtomRun t p op q p') : q.Fits conditional blank := by
  cases h with
  | isNull _ _ _ => exact .nullity true _
  | isNotNull _ _ _ => exact .nullity false _
  | like _ _ _ _ htest => exact hd.test htest
  | unlike _ _ _ _ htest => exact hd.unlike (hd.test htest)
  | compared op _ _ _ _ _ => exact .comparison op _ _
  | @among _ c _ _ _ _ markers negated _ _ _ =>
    split
    · exact hd.outside c markers
    · exact .membership false c markers
  | nullity isNull _ _ => exact .nullity isNull _
  | blankness isBlank _ _ hblank => exact hd.blankness hblank
  | @text path c _ p₁ _ values parts op _ _ _ htests =>
    have hparts : ∀ q ∈ parts, q.Fits conditional blank := by
      refine forall_of_each htests fun value _ p p' q hq => ?_
      obtain ⟨text, _, htest⟩ := Build.lookup_bind_ok_iff.1 hq
      exact hd.test htest
    split
    · exact .allOf hparts
    · exact .anyOf hparts

/-- The compiler of predicates stays within the forms of its target. -/
theorem fits_predicate (hd : d.Fits conditional blank) (t : Term) :
    ∀ {p p' : Progress σ} {q : Predicate C}, d.predicate t p = .ok (q, p') →
      q.Fits conditional blank := by
  induction t using Term.induction with
  | node token quote children ih =>
    intro p p' q h
    cases run_of_predicate h with
    | all _ _ hparts => exact .allOf (forall_of_each hparts fun t ht _ _ _ h => ih t ht h)
    | any _ _ hparts => exact .anyOf (forall_of_each hparts fun t ht _ _ _ h => ih t ht h)
    | negation _ hpart => exact .negation (ih _ (by simp) hpart)
    | conditional _ hdeciding hc ht hf =>
      exact .choice (hd.deciding hdeciding) (ih _ (by simp) hc) (ih _ (by simp) ht)
        (ih _ (by simp) hf)
    | connectives _ _ hc ht hagain hf =>
      have hpair : ∀ {q q' : Predicate C}, q.Fits conditional blank →
          q'.Fits conditional blank → ∀ r ∈ [q, q'], r.Fits conditional blank := by
        intro q q' hq hq' r hr
        have hor : r = q ∨ r = q' := by simpa using hr
        rcases hor with rfl | rfl
        · exact hq
        · exact hq'
      exact .any (hpair (.all (hpair (ih _ (by simp) hc) (ih _ (by simp) ht)))
        (.all (hpair (.negation (ih _ (by simp) hagain)) (ih _ (by simp) hf))))
    | atom _ hatom => exact hatom.fits hd

theorem fits_predicates (hd : d.Fits conditional blank) {ts : List Term}
    {qs : List (Predicate C)} (h : d.predicates ts p = .ok (qs, p')) :
    ∀ q ∈ qs, q.Fits conditional blank :=
  forall_of_each (predicates_ok_iff.1 h) fun t _ _ _ _ ht => fits_predicate hd t ht

end Dialog

/-- The forms of the expressions of a target: numerals are read as numbers, and
conditions are of the target's forms. -/
inductive Expression.Fits (conditional : Prop) (blank : Option Nat → Prop) :
    Expression C → Prop where
  | everything : Fits conditional blank .everything
  | column (c : C) : Fits conditional blank (.column c)
  | numeral {text : String} (h : Number.isNumber text = true) :
      Fits conditional blank (.numeral text)
  | aggregate (function : Aggregate) {argument : Expression C}
      (h : Fits conditional blank argument) : Fits conditional blank (.aggregate function argument)
  | choice {c : Predicate C} {t f : Expression C} (hc : c.Fits conditional blank)
      (ht : Fits conditional blank t) (hf : Fits conditional blank f) :
      Fits conditional blank (.choice c t f)

namespace Dialog

variable {d : Dialog σ C} {star : Bool → Term → Option (Expression C)} {p p' : Progress σ}

/-- The compiler of expressions stays within the forms of its target. -/
theorem fits_expression (hd : d.Fits conditional blank)
    (hstar : ∀ {inside : Bool} {t : Term} {e : Expression C}, star inside t = some e →
      e.Fits conditional blank) (t : Term) :
    ∀ {inside : Bool} {p p' : Progress σ} {e : Expression C},
      d.expression star inside t p = .ok (e, p') → e.Fits conditional blank := by
  induction t using Term.induction with
  | node token quote children ih =>
    intro inside p p' e h
    have hbranch : ∀ t ∈ children, ∀ {p p' : Progress σ} {e : Expression C},
        branch t (d.expression star false t) p = .ok (e, p') → e.Fits conditional blank := by
      intro t ht p p' e h
      rcases branch_ok h with ⟨hnumeral, rfl, _⟩ | ⟨_, h⟩
      · exact .numeral (Bool.and_eq_true_iff.1 hnumeral).2
      · exact ih t ht h
    cases run_of_expression h with
    | whole hwhole => exact hstar hwhole
    | column _ _ => exact .column _
    | aggregate _ _ hargument => exact .aggregate _ (ih _ (List.mem_singleton_self _) hargument)
    | choice _ _ _ hc ht hf =>
      exact .choice (fits_predicate hd _ hc) (hbranch _ (by simp) ht) (hbranch _ (by simp) hf)

theorem fits_computed (hd : d.Fits conditional blank)
    (hstar : ∀ {inside : Bool} {t : Term} {e : Expression C}, star inside t = some e →
      e.Fits conditional blank) {cs : List Computed} {es : List (Computed × Expression C)}
    (h : d.computed star cs p = .ok (es, p')) : ∀ e ∈ es, e.2.Fits conditional blank := by
  rw [computed_eq_mapM, Build.mapM_ok_iff] at h
  refine forall_of_each h fun c _ p p' e he => ?_
  obtain ⟨e', hexpression, rfl⟩ := Build.bind_pure_ok_iff.1 he
  exact fits_expression hd hstar c.expression hexpression

end Dialog
end Fits

/-! ## The pieces of predicates and expressions -/

/-- The phrases of a target keep the markers. -/
structure Phrasing.Faithful (s : Phrasing C) (blank : Option Nat → Prop) : Prop where
  column : ∀ c, Piece.markers (s.column c) = []
  nullity : ∀ isNull column, Piece.markers column = [] →
    Piece.markers (s.nullity isNull column) = []
  blankness : ∀ isBlank column marker, blank marker → Piece.markers column = [] →
    Piece.markers (s.blankness isBlank column marker) = marker.toList
  text : ∀ test negated column marker, Piece.markers column = [] →
    Piece.markers (s.text test negated column marker) = [marker]

namespace Predicate

variable {conditional : Prop} {blank : Option Nat → Prop} {s : Phrasing C}

theorem piecesAll_eq_map (parts : List (Predicate C)) :
    piecesAll s parts = parts.map (pieces s) := by
  induction parts with
  | nil => rw [piecesAll, List.map_nil]
  | cons part parts ih => rw [piecesAll, ih, List.map_cons]

/-- The markers of all parts are those of each part, one after the other. -/
theorem flatMap_markers_eq {parts : List (Predicate C)}
    (h : ∀ q ∈ parts, Piece.markers (q.pieces s) = q.slots.map Prod.snd) :
    (piecesAll s parts).flatMap Piece.markers = (parts.flatMap slots).map Prod.snd := by
  rw [piecesAll_eq_map]
  induction parts with
  | nil => rfl
  | cons part parts ih =>
    rw [List.map_cons, List.flatMap_cons, List.flatMap_cons, List.map_append,
      h part List.mem_cons_self, ih fun q hq => h q (List.mem_cons_of_mem part hq)]

/-- The pieces of a predicate hold its markers, in their order. -/
theorem markers_pieces (hs : s.Faithful blank) {q : Predicate C}
    (h : q.Fits conditional blank) : Piece.markers (q.pieces s) = q.slots.map Prod.snd := by
  induction h with
  | all _ ih =>
    rw [pieces, slots_all, ← flatMap_markers_eq ih]
    simp [enclosed]
  | any _ ih =>
    rw [pieces, slots_any, ← flatMap_markers_eq ih]
    simp [enclosed]
  | negation _ ih =>
    rw [pieces, slots, ← ih]
    simp
  | choice _ _ _ _ ihc iht ihf =>
    rw [pieces, slots, List.map_append, List.map_append, ← ihc, ← iht, ← ihf]
    simp [enclosed]
  | comparison op column marker => simp [pieces, slots, hs.column]
  | membership negated column markers =>
    rw [pieces, slots]
    simp [hs.column, Function.comp_def, List.flatMap_map]
  | nullity isNull column =>
    rw [pieces, slots]
    exact hs.nullity isNull _ (hs.column column)
  | @blankness isBlank column marker hblank =>
    rw [pieces, slots, hs.blankness isBlank _ marker hblank (hs.column column)]
    simp [Function.comp_def]
  | text test negated column marker =>
    rw [pieces, slots]
    exact hs.text test negated _ marker (hs.column column)

end Predicate

/-- The pieces of an expression hold its markers, in their order. -/
theorem Expression.markers_pieces {conditional : Prop} {blank : Option Nat → Prop}
    {s : Phrasing C} (hs : s.Faithful blank) (phrase : ChoicePhrase) {e : Expression C}
    (h : e.Fits conditional blank) :
    Piece.markers (e.pieces s phrase) = e.slots.map Prod.snd := by
  induction h with
  | everything => rfl
  | column c =>
    rw [pieces, slots]
    exact hs.column c
  | numeral _ => rfl
  | aggregate function _ ih =>
    rw [pieces, slots, ← ih]
    simp
  | choice hc _ _ iht ihf =>
    rw [pieces, slots, List.map_append, List.map_append, ← iht, ← ihf,
      ← Predicate.markers_pieces hs hc]
    cases phrase <;> simp [ChoicePhrase.pieces]

end ResourceQuery

import ResourceQuery.Proofs.FilterText.Phrases
import ResourceQuery.Proofs.Statement.Pieces

set_option autoImplicit false

/-!
# Filter texts: what predicates tell

The text of a compiled predicate tells its truth, for every target whose phrases
for columns and tests do.  A predicate is written so that it can stand beside
any connective: it is an atom, or `NOT` with parentheses, or it is enclosed
itself.

Three parts are kept apart, so that a target has to prove little: which
predicates compilers give (`Predicate.Whole`), how a target is heard
(`Voice.Clear`), and that the compiled predicate is true where its term is
(`Dialog.Truthful`). `Spoken.says_filter` joins them.
-/

namespace ResourceQuery

variable {σ C : Type}

/-! ## Compiled predicates -/

/-- The predicates that compilers give: a conjunction or disjunction has parts,
columns are `good`, and tests for emptiness have the markers that the target
gives them. -/
inductive Predicate.Whole (good : C → Prop) (conditional : Prop) (blank : Option Nat → Prop) :
    Predicate C → Prop where
  | all {parts : List (Predicate C)} (hne : parts ≠ [])
      (h : ∀ q ∈ parts, Whole good conditional blank q) : Whole good conditional blank (.all parts)
  | any {parts : List (Predicate C)} (hne : parts ≠ [])
      (h : ∀ q ∈ parts, Whole good conditional blank q) : Whole good conditional blank (.any parts)
  | negation {part : Predicate C} (h : Whole good conditional blank part) :
      Whole good conditional blank (.negation part)
  | choice {c t f : Predicate C} (h : conditional) (hc : Whole good conditional blank c)
      (ht : Whole good conditional blank t) (hf : Whole good conditional blank f) :
      Whole good conditional blank (.choice c t f)
  | comparison (op : Comparison) {column : C} (h : good column) (marker : Nat) :
      Whole good conditional blank (.comparison op column marker)
  | membership (negated : Bool) {column : C} (h : good column) (markers : List Nat) :
      Whole good conditional blank (.membership negated column markers)
  | nullity (isNull : Bool) {column : C} (h : good column) :
      Whole good conditional blank (.nullity isNull column)
  | blankness (isBlank : Bool) {column : C} (h : good column) {marker : Option Nat}
      (hmarker : blank marker) : Whole good conditional blank (.blankness isBlank column marker)
  | text (test : TextTest) (negated : Bool) {column : C} (h : good column) (marker : Nat) :
      Whole good conditional blank (.text test negated column marker)

section Whole

variable {good : C → Prop} {conditional : Prop} {blank : Option Nat → Prop}

theorem Predicate.Elementary.whole {c : C} {k : Nat} {q : Predicate C} (h : q.Elementary c k)
    (hc : good c) : q.Whole good conditional blank := by
  cases h with
  | comparison op => exact .comparison op hc k
  | text test negated => exact .text test negated hc k

/-- Whole predicates are of the forms that their target has. -/
theorem Predicate.Whole.fits {q : Predicate C} (h : q.Whole good conditional blank) :
    q.Fits conditional blank := by
  induction h with
  | all _ _ ih => exact .all ih
  | any _ _ ih => exact .any ih
  | negation _ ih => exact .negation ih
  | choice h _ _ _ ihc iht ihf => exact .choice h ihc iht ihf
  | comparison op _ marker => exact .comparison op _ marker
  | membership negated _ markers => exact .membership negated _ markers
  | nullity isNull _ => exact .nullity isNull _
  | blankness isBlank _ hmarker => exact .blankness isBlank _ hmarker
  | text test negated _ marker => exact .text test negated _ marker

theorem Predicate.Whole.allOf {parts : List (Predicate C)} (hne : parts ≠ [])
    (h : ∀ q ∈ parts, q.Whole good conditional blank) :
    (allOf parts).Whole good conditional blank := by
  unfold Predicate.allOf
  split
  · exact h _ (List.mem_singleton_self _)
  · exact .all hne h

theorem Predicate.Whole.anyOf {parts : List (Predicate C)} (hne : parts ≠ [])
    (h : ∀ q ∈ parts, q.Whole good conditional blank) :
    (anyOf parts).Whole good conditional blank := by
  unfold Predicate.anyOf
  split
  · exact h _ (List.mem_singleton_self _)
  · exact .any hne h

/-- What a target does in its own way gives whole predicates of good columns. -/
structure Dialog.Whole (d : Dialog σ C) (good : C → Prop) (conditional : Prop)
    (blank : Option Nat → Prop) : Prop where
  deciding : d.deciding = .conditional → conditional
  test : ∀ {op : TextOperator} {c : C} {path text : String} {p p' : Progress σ}
    {q : Predicate C}, good c → d.test op c path text p = .ok (q, p') →
    q.Whole good conditional blank
  unlike : ∀ {q : Predicate C}, q.Whole good conditional blank →
    (d.unlike q).Whole good conditional blank
  outside : ∀ {c : C} (markers : List Nat), good c →
    (d.outside c markers).Whole good conditional blank
  blankness : ∀ {isBlank : Bool} {c : C} {path : String} {p p' : Progress σ}
    {q : Predicate C}, good c → d.blankness isBlank c path p = .ok (q, p') →
    q.Whole good conditional blank

/-- The columns that a term and those in it name are good. -/
def Dialog.Finds (d : Dialog σ C) (good : C → Prop) (t : Term) : Prop :=
  ∀ u ∈ t.subterms, ∀ (p p' : Progress σ) (path : String) (c : C) (property : Property),
    d.Addresses u p path c property p' → good c

namespace Dialog

variable {d : Dialog σ C} {p p' : Progress σ}

theorem Finds.child {token : String} {quote : Option Quote} {children : List Term} {t : Term}
    (h : d.Finds good (.node token quote children)) (ht : t ∈ children) : d.Finds good t :=
  fun u hu => h u (Term.mem_subterms_of_child ht hu)

/-- Each step gives one result. -/
theorem ne_nil_of_each {α β : Type} {f : α → Build σ β} {xs : List α} {ys : List β}
    (h : Build.Each f xs p ys p') (hne : xs ≠ []) : ys ≠ [] := by
  cases h with
  | nil => exact absurd rfl hne
  | cons _ _ => exact List.cons_ne_nil _ _

theorem AtomRun.whole (hd : d.Whole good conditional blank) {t : Term} {op : Operator}
    {q : Predicate C} (hfinds : d.Finds good t) (h : d.AtomRun t p op q p') :
    q.Whole good conditional blank := by
  have hgood : ∀ {path : String} {c : C} {property : Property} {p' : Progress σ},
      d.Addresses t p path c property p' → good c :=
    fun ha => hfinds t t.mem_subterms_self _ _ _ _ _ ha
  cases h with
  | isNull ha _ _ => exact .nullity true (hgood ha)
  | isNotNull ha _ _ => exact .nullity false (hgood ha)
  | like ha _ _ _ htest => exact hd.test (hgood ha) htest
  | unlike ha _ _ _ htest => exact hd.unlike (hd.test (hgood ha) htest)
  | compared op ha _ _ _ _ => exact .comparison op (hgood ha) _
  | @among _ c _ _ _ _ markers negated ha _ _ =>
    split
    · exact hd.outside markers (hgood ha)
    · exact .membership false (hgood ha) markers
  | nullity isNull _ ha => exact .nullity isNull (hgood ha)
  | blankness isBlank _ ha hblank => exact hd.blankness (hgood ha) hblank
  | @text path c _ p₁ _ values parts op _ ha hvs htests =>
    have hne : parts ≠ [] := ne_nil_of_each htests (Term.ne_nil_of_values hvs)
    have hparts : ∀ q ∈ parts, q.Whole good conditional blank := by
      refine forall_of_each htests fun value _ p p' q hq => ?_
      obtain ⟨text, _, htest⟩ := Build.lookup_bind_ok_iff.1 hq
      exact hd.test (hgood ha) htest
    split
    · exact .allOf hne hparts
    · exact .anyOf hne hparts

/-- The compiler gives whole predicates. -/
theorem whole_predicate (hd : d.Whole good conditional blank) (t : Term) (hfinds : d.Finds good t) :
    ∀ {p p' : Progress σ} {q : Predicate C}, d.predicate t p = .ok (q, p') →
      q.Whole good conditional blank := by
  induction t using Term.induction with
  | node token quote children ih =>
    intro p p' q h
    have ih : ∀ t ∈ children, ∀ {p p' : Progress σ} {q : Predicate C},
        d.predicate t p = .ok (q, p') → q.Whole good conditional blank :=
      fun t ht _ _ _ h => ih t ht (hfinds.child ht) h
    cases run_of_predicate h with
    | all _ hne hparts =>
      exact .allOf (ne_nil_of_each hparts hne) (forall_of_each hparts fun t ht _ _ _ h => ih t ht h)
    | any _ hne hparts =>
      exact .anyOf (ne_nil_of_each hparts hne) (forall_of_each hparts fun t ht _ _ _ h => ih t ht h)
    | negation _ hpart => exact .negation (ih _ (by simp) hpart)
    | conditional _ hdeciding hc ht hf =>
      exact .choice (hd.deciding hdeciding) (ih _ (by simp) hc) (ih _ (by simp) ht)
        (ih _ (by simp) hf)
    | connectives _ _ hc ht hagain hf =>
      have hpair : ∀ {q q' : Predicate C}, q.Whole good conditional blank →
          q'.Whole good conditional blank → ∀ r ∈ [q, q'], r.Whole good conditional blank := by
        intro q q' hq hq' r hr
        have hor : r = q ∨ r = q' := by simpa using hr
        rcases hor with rfl | rfl
        · exact hq
        · exact hq'
      exact .any (by simp) (hpair
        (.all (by simp) (hpair (ih _ (by simp) hc) (ih _ (by simp) ht)))
        (.all (by simp) (hpair (.negation (ih _ (by simp) hagain)) (ih _ (by simp) hf))))
    | atom _ hatom => exact hatom.whole hd hfinds

/-- All predicates of a filter are whole. -/
theorem whole_predicates (hd : d.Whole good conditional blank) {ts : List Term}
    (hfinds : ∀ t ∈ ts, d.Finds good t) {qs : List (Predicate C)}
    (h : d.predicates ts p = .ok (qs, p')) : ∀ q ∈ qs, q.Whole good conditional blank :=
  forall_of_each (predicates_ok_iff.1 h) fun t ht _ _ _ hq => whole_predicate hd t (hfinds t ht) hq

end Dialog
end Whole

/-! ## Voices -/

namespace FilterText

/-- How a target is heard: its language, and what its filters say of the atoms.
The truths `ρ` of the atoms are given by their signs in positive form. -/
structure Voice (C : Type) where
  reader : Reader
  spelling : Spelling
  phrasing : Phrasing C
  /-- The signs of a column. -/
  column : C → List Sign
  /-- The column has no value. -/
  null : (List Sign → Bool) → C → Bool
  /-- The column has no value or an empty one. -/
  blank : (List Sign → Bool) → C → Option Value → Bool
  /-- The column passes a test against the text. -/
  passes : (List Sign → Bool) → TextTest → C → Value → Bool

/-- Signs with commas between them. -/
def listed : List Sign → List Sign
  | [] => []
  | [s] => [s]
  | s :: ss => s :: .mark ',' :: listed ss

namespace Voice

/-- What the conditions of the target mean. -/
def meaning (v : Voice C) (ρ : List Sign → Bool) : Meaning C where
  compares op c x := ρ (v.column c ++ [.word (op.sign "="), .value x])
  among c xs := ρ (v.column c ++ ([.word "IN"] ++ enclosed (listed (xs.map .value))))
  null := v.null ρ
  blank := v.blank ρ
  passes := v.passes ρ

/-- The pieces tell the verdict. -/
abbrev Tells (v : Voice C) (pieces : List Piece) (ks : List Nat) (verdict : Verdict) : Prop :=
  FilterText.Tells v.reader v.spelling .negation pieces ks verdict

/-- The target's phrases tell what they are for. -/
structure Clear (v : Voice C) (good : C → Prop) (conditional : Prop) (blank : Option Nat → Prop) :
    Prop where
  fluent : Fluent v.reader
  deciding : conditional → Fixed v.reader " ? " [.mark '?'] ∧ Fixed v.reader " : " [.mark ':']
  unequal : v.phrasing.notEqual = "<>" ∨ v.phrasing.notEqual = "!="
  marker : ∀ k, Signs v.reader v.spelling [.marker k] [.marker k]
  isMarker : ∀ k, v.reader.isMarker (v.spelling.marker k) = true
  column : ∀ {c}, good c → Signs v.reader v.spelling (v.phrasing.column c) (v.column c)
  steady : ∀ {c}, good c → Steady v.reader (v.column c)
  ne_nil : ∀ {c}, good c → v.column c ≠ []
  nullity : ∀ {c}, good c → ∀ isNull,
    v.Tells (v.phrasing.nullity isNull (v.phrasing.column c)) [] fun _ ρ => v.null ρ c == isNull
  blankness : ∀ {c}, good c → ∀ {marker}, blank marker → ∀ isBlank,
    v.Tells (v.phrasing.blankness isBlank (v.phrasing.column c) marker) marker.toList
      fun values ρ => v.blank ρ c (marker.map values.at) == isBlank
  text : ∀ {c}, good c → ∀ test negated k,
    v.Tells (v.phrasing.text test negated (v.phrasing.column c) k) [k]
      fun values ρ => v.passes ρ test c (values.at k) != negated

end Voice

/-! ## Lists of values -/

theorem listed_cons_cons (s t : Sign) (ss : List Sign) :
    listed (s :: t :: ss) = s :: .mark ',' :: listed (t :: ss) := rfl

theorem map_ground_listed (values : Bindings) (ks : List Nat) :
    (listed (ks.map .marker)).map (Sign.ground values) =
      listed ((ks.map values.at).map .value) := by
  induction ks with
  | nil => rfl
  | cons k ks ih =>
    cases ks with
    | nil => rfl
    | cons k' ks =>
      simp only [List.map_cons, listed_cons_cons] at ih ⊢
      rw [ih]
      rfl

theorem markers_listed (ks : List Nat) : markers (listed (ks.map .marker)) = ks := by
  induction ks with
  | nil => rfl
  | cons k ks ih =>
    cases ks with
    | nil => rfl
    | cons k' ks =>
      simp only [List.map_cons, listed_cons_cons, markers_marker, markers_mark] at ih ⊢
      rw [ih]

/-- What holds of values and commas holds of a list of values. -/
theorem forall_mem_listed {p : Sign → Prop} (hcomma : p (.mark ',')) {ss : List Sign}
    (h : ∀ s ∈ ss, p s) : ∀ s ∈ listed ss, p s := by
  induction ss with
  | nil => exact h
  | cons s ss ih =>
    cases ss with
    | nil => exact h
    | cons t ss =>
      rw [listed_cons_cons]
      intro x hx
      rcases List.mem_cons.1 hx with rfl | hx
      · exact h x List.mem_cons_self
      · rcases List.mem_cons.1 hx with rfl | hx
        · exact hcomma
        · exact ih (fun y hy => h y (List.mem_cons_of_mem s hy)) x hx

theorem affirms_listed (xs : List Value) : affirms (listed (xs.map .value)) = true := by
  refine List.all_eq_true.2 (forall_mem_listed (by decide) fun s hs => ?_)
  obtain ⟨x, _, rfl⟩ := List.mem_map.1 hs
  rw [positive_value, beq_self_eq_true]

namespace Voice.Clear

variable {v : Voice C} {good : C → Prop} {conditional : Prop} {blank : Option Nat → Prop}

theorem signs_listed (hv : v.Clear good conditional blank) (ks : List Nat) :
    Signs v.reader v.spelling (Piece.join ", " (ks.map fun k => [.marker k]))
      (listed (ks.map .marker)) := by
  induction ks with
  | nil => exact .nil
  | cons k ks ih =>
    cases ks with
    | nil => exact hv.marker k
    | cons k' ks => exact (hv.marker k).between hv.fluent.parts hv.fluent.comma ih

/-- The signs of a comparison, behind the column. -/
theorem eval_comparison {notEqual : String} (h : notEqual = "<>" ∨ notEqual = "!=")
    (op : Comparison) (c : List Sign) (x : Value) (ρ : List Sign → Bool) :
    (ρ (c ++ positives [.word (op.sign notEqual), .value x]) ==
        affirms [.word (op.sign notEqual), .value x]) =
      if op = .ne then !ρ (c ++ [.word "=", .value x])
      else ρ (c ++ [.word (op.sign "="), .value x]) := by
  have hsame : ∀ text, Sign.positive (.word text) = some (.word text) →
      (ρ (c ++ positives [.word text, .value x]) == affirms [.word text, .value x]) =
        ρ (c ++ [.word text, .value x]) := by
    intro text htext
    simp [positives, affirms, htext, positive_value]
  have hother : ∀ text, Sign.positive (.word text) = some (.word "=") →
      (Sign.word "=" == .word text) = false →
      (ρ (c ++ positives [.word text, .value x]) == affirms [.word text, .value x]) =
        !ρ (c ++ [.word "=", .value x]) := by
    intro text htext hne
    simp [positives, affirms, htext, positive_value, hne]
  cases op with
  | ne =>
    rcases h with rfl | rfl
    · exact hother _ (by decide) (by decide)
    · exact hother _ (by decide) (by decide)
  | eq => exact hsame "=" (by decide)
  | lt => exact hsame "<" (by decide)
  | le => exact hsame "<=" (by decide)
  | gt => exact hsame ">" (by decide)
  | ge => exact hsame ">=" (by decide)

theorem isFlat_sign {notEqual : String} (h : notEqual = "<>" ∨ notEqual = "!=") (op : Comparison) :
    (Sign.word (op.sign notEqual)).isFlat = true := by
  rcases h with rfl | rfl <;> cases op <;> decide

theorem head?_blank (word : String) : s!" {word} ".toList.head? = some ' ' := by
  have htext : s!" {word} " = " " ++ word ++ " " := rfl
  rw [htext, String.toList_append, String.toList_append]
  rfl

/-- A comparison with a value. -/
theorem tells_comparison (hv : v.Clear good conditional blank) (op : Comparison) {c : C}
    (hc : good c) (k : Nat) :
    v.Tells ((Predicate.comparison op c k).pieces v.phrasing) [k]
      fun values ρ => (Predicate.comparison op c k).truth (v.meaning ρ) values := by
  have hsigns : Signs v.reader v.spelling ((Predicate.comparison op c k).pieces v.phrasing)
      (v.column c ++ [.word (op.sign v.phrasing.notEqual), .marker k]) := by
    rw [Predicate.pieces]
    exact (hv.column hc).between (parts_blank (head?_blank _)) (hv.fluent.sign op _ hv.unequal) (hv.marker k)
  have hmarkers : markers (v.column c ++ [.word (op.sign v.phrasing.notEqual), .marker k]) = [k] := by
    rw [markers_append, markers_of_fixed (hv.steady hc).fixed]
    rfl
  have hflat : ∀ s ∈ [Sign.word (op.sign v.phrasing.notEqual), .marker k], s.isFlat = true := by
    intro s hs
    have hor : s = .word (op.sign v.phrasing.notEqual) ∨ s = .marker k := by simpa using hs
    rcases hor with rfl | rfl
    · exact isFlat_sign hv.unequal op
    · rfl
  refine ⟨_, hsigns, hmarkers, ((hv.steady hc).means (hv.ne_nil hc) hflat).congr fun values ρ => ?_⟩
  rw [Predicate.truth]
  exact eval_comparison hv.unequal op _ _ ρ

/-- The word of a comparison with several values. -/
def among (negated : Bool) : List Sign :=
  if negated then [.word "NOT", .word "IN"] else [.word "IN"]

/-- A comparison with several values. -/
theorem tells_membership (hv : v.Clear good conditional blank) (negated : Bool) {c : C}
    (hc : good c) (ks : List Nat) :
    v.Tells ((Predicate.membership negated c ks).pieces v.phrasing) ks
      fun values ρ => (Predicate.membership negated c ks).truth (v.meaning ρ) values := by
  have hfixed : Fixed v.reader (if negated then " NOT IN (" else " IN (")
      (among negated ++ [.mark '(']) := by
    cases negated with
    | true => exact hv.fluent.without
    | false => exact hv.fluent.within
  have hparts : Parts v.reader (if negated then " NOT IN (" else " IN (") := by
    cases negated <;> exact parts_blank rfl
  have hsigns : Signs v.reader v.spelling ((Predicate.membership negated c ks).pieces v.phrasing)
      (v.column c ++ (among negated ++ enclosed (listed (ks.map .marker)))) := by
    have hwhole := ((hv.column hc).between hparts hfixed (hv.signs_listed ks)).before
      hv.fluent.closes hv.fluent.closing
    rw [Predicate.pieces]
    simpa only [enclosed, List.append_assoc, List.cons_append, List.nil_append] using hwhole
  have hmarkers : markers (v.column c ++
      (among negated ++ enclosed (listed (ks.map .marker)))) = ks := by
    have hwords : markers (among negated) = [] := by cases negated <;> rfl
    rw [markers_append, markers_of_fixed (hv.steady hc).fixed, markers_append, hwords,
      markers_enclosed, markers_listed]
    rfl
  have hwords : ∀ s ∈ among negated, s.isFlat = true := by
    refine List.all_eq_true.1 ?_
    cases negated <;> decide
  have hlist : ∀ s ∈ listed (ks.map .marker), s.isFlat = true := by
    refine forall_mem_listed (by decide) fun s hs => ?_
    obtain ⟨k, _, rfl⟩ := List.mem_map.1 hs
    rfl
  have haffirms : ∀ values, affirms ((listed (ks.map .marker)).map (Sign.ground values)) = true := by
    intro values
    rw [map_ground_listed, affirms_listed]
  refine ⟨_, hsigns, hmarkers, ((hv.steady hc).means_list (hv.ne_nil hc) hwords hlist
    haffirms).congr fun values ρ => ?_⟩
  rw [Predicate.truth, map_ground_listed]
  have hdenied : ∀ b : Bool, (b == !negated) = (b != negated) := by cases negated <;> decide
  cases negated with
  | true => exact hdenied _
  | false => exact hdenied _

/-- The text of a predicate tells its truth. -/
theorem tells_predicate (hv : v.Clear good conditional blank) {q : Predicate C}
    (h : q.Whole good conditional blank) :
    v.Tells (q.pieces v.phrasing) (q.slots.map Prod.snd)
      fun values ρ => q.truth (v.meaning ρ) values := by
  have hr := hv.fluent
  induction h with
  | @all parts hne _ ih =>
    rw [Predicate.pieces, Predicate.piecesAll_eq_map, Predicate.slots_all, List.map_flatMap]
    simpa only [Predicate.truth_all] using (Tells.join_and hr hne ih).disjunct.enclosed hr
  | @any parts hne _ ih =>
    rw [Predicate.pieces, Predicate.piecesAll_eq_map, Predicate.slots_any, List.map_flatMap]
    simpa only [Predicate.truth_any] using (Tells.join_or hr hne ih).enclosed hr
  | negation _ ih =>
    rw [Predicate.pieces, Predicate.slots]
    simpa only [Predicate.truth] using ih.conjunct.disjunct.not hr
  | choice hconditional _ _ _ ihc iht ihf =>
    obtain ⟨hask, hcolon⟩ := hv.deciding hconditional
    rw [Predicate.pieces, Predicate.slots, List.map_append, List.map_append]
    simpa only [Predicate.truth] using Tells.choice hr hask hcolon ihc.conjunct.disjunct
      iht.conjunct.disjunct ihf.conjunct.disjunct
  | comparison op hc k => exact hv.tells_comparison op hc k
  | membership negated hc ks =>
    rw [Predicate.slots, List.map_map]
    simpa only [Function.comp_def, List.map_id'] using hv.tells_membership negated hc ks
  | nullity isNull hc =>
    rw [Predicate.pieces, Predicate.slots]
    exact hv.nullity hc isNull
  | @blankness isBlank c hc marker hmarker =>
    rw [Predicate.pieces, Predicate.slots, List.map_map]
    simpa only [Function.comp_def, List.map_id', Predicate.truth, Voice.meaning] using
      hv.blankness hc hmarker isBlank
  | text test negated hc k =>
    rw [Predicate.pieces, Predicate.slots]
    exact hv.text hc test negated k

end Voice.Clear

/-! ## Filters -/

/-- The text has one reading, and its truth is the value.  Where no text is, the value is true. -/
def Reader.Says (r : Reader) (spell : Nat → String) (values : Bindings) (n : Nat) :
    Option String → ((List Sign → Bool) → Bool) → Prop
  | none, value => ∀ ρ, value ρ = true
  | some text, value => ∃ φ, (∀ ψ, r.ReadsAs spell values n text ψ ↔ ψ = φ) ∧
      ∀ ρ, φ.eval ρ = value ρ

/-- The filter of several predicates; none is written for none. -/
def Voice.filter (v : Voice C) (qs : List (Predicate C)) : Option String :=
  if qs.isEmpty then none
  else some (Piece.textAll v.spelling (Predicate.conjunction v.phrasing qs))

/-- A filter behind the word that opens it; nothing where no filter is. -/
def opened (opening : String) (filter : Option String) : String :=
  (filter.map (opening ++ ·)).getD ""

/-- The clause of a filter. -/
theorem Voice.textAll_clause (v : Voice C) (opening : String) (qs : List (Predicate C)) :
    Piece.textAll v.spelling (Piece.clause opening " AND " (Predicate.piecesAll v.phrasing qs)) =
      opened opening (v.filter qs) := by
  cases qs with
  | nil => rfl
  | cons q qs =>
    have hparts : (Predicate.piecesAll v.phrasing (q :: qs)).isEmpty = false := by
      rw [Predicate.piecesAll_eq_map]
      rfl
    have hfilter : opened opening (v.filter (q :: qs)) =
        opening ++ Piece.textAll v.spelling (Predicate.conjunction v.phrasing (q :: qs)) := rfl
    rw [Piece.clause, hparts, if_neg (by decide), hfilter]
    apply String.toList_inj.1
    rw [String.toList_append]
    exact chars_cons v.spelling (.fixed opening) _

/-- The filter of predicates says that all are true, once their markers are numbered. -/
theorem Voice.Clear.says_filter {v : Voice C} {good : C → Prop} {conditional : Prop}
    {blank : Option Nat → Prop} (hv : v.Clear good conditional blank) {qs : List (Predicate C)}
    (hwhole : ∀ q ∈ qs, q.Whole good conditional blank) {names : C → String → Prop}
    {p p' : Progress σ} (hissued : Issued names p p' (qs.flatMap Predicate.slots))
    {values : Bindings} (hvalues : p'.values <+: values) :
    v.reader.Says v.spelling.marker values p.values.length (v.filter qs)
      fun ρ => (qs.map (Predicate.truth (v.meaning ρ) values)).all id := by
  by_cases hne : qs = []
  · subst hne
    exact fun _ => rfl
  · have hfilter : v.filter qs =
        some (Piece.textAll v.spelling (Predicate.conjunction v.phrasing qs)) := by
      rw [Voice.filter, if_neg (by simpa using hne)]
    obtain ⟨bound, hbound, hnumbered⟩ := hissued
    have htells := (Tells.join_and hv.fluent hne fun q hq => hv.tells_predicate (hwhole q hq)).disjunct
    have hnumbers : (qs.flatMap fun q => q.slots.map Prod.snd) =
        List.range' (p.values.length + 1) bound.length := by
      rw [← hnumbered.numbers_eq, List.map_flatMap]
    have hlength : p.values.length + bound.length ≤ values.length := by
      rw [← List.length_append, ← hbound]
      exact hvalues.length_le
    rw [hfilter, Predicate.conjunction, Predicate.piecesAll_eq_map]
    rw [hnumbers] at htells
    exact htells.readsAs_iff hv.isMarker hlength

/-- A target whose filters say what their terms say: what is known of its
columns, of its markers, of its tests, and of how it is heard. -/
structure Spoken (d : Dialog σ C) (v : Voice C) (good : C → Prop) (grows : σ → σ → Prop)
    (sense : Meaning C → Sense C) : Prop where
  forms : ∃ conditional blank, v.Clear good conditional blank ∧ d.Whole good conditional blank
  issues : ∃ names, d.Issues names
  truthful : ∀ m, d.Truthful grows (sense m)
  toMeaning : ∀ m, (sense m).toMeaning = m

/-- The filter of compiled terms says that all of them hold. -/
theorem Spoken.says_filter {d : Dialog σ C} {v : Voice C} {good : C → Prop} {grows : σ → σ → Prop}
    {sense : Meaning C → Sense C} (hd : Spoken d v good grows sense) {ts : List Term}
    (hfinds : ∀ t ∈ ts, d.Finds good t) {p p' f : Progress σ} {qs : List (Predicate C)}
    (h : d.predicates ts p = .ok (qs, p')) (hf : p'.Later grows f) :
    v.reader.Says v.spelling.marker f.values p.values.length (v.filter qs)
      fun ρ => ts.all ((sense (v.meaning ρ)).holds (d.look f)) := by
  obtain ⟨conditional, blank, hclear, hwhole⟩ := hd.forms
  obtain ⟨names, hissues⟩ := hd.issues
  have hsays := hclear.says_filter (Dialog.whole_predicates hwhole hfinds h)
    (Dialog.issued_predicates hissues h) hf.values
  have htruth : ∀ ρ, (qs.map (Predicate.truth (v.meaning ρ) f.values)).all id =
      ts.all ((sense (v.meaning ρ)).holds (d.look f)) := by
    intro ρ
    have hsettled := (Dialog.settles_predicates (hd.truthful (v.meaning ρ)) h).always f hf
    rw [hd.toMeaning] at hsettled
    rw [hsettled, List.all_map]
    rfl
  exact (funext htruth) ▸ hsays

end FilterText
end ResourceQuery

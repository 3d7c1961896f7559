import ResourceQuery.Proofs.Statement.Pieces
import ResourceQuery.Proofs.Statement.Truth
import ResourceQuery.Statement.TextFunctions

set_option autoImplicit false

/-!
# Statements: what tests of texts come to

A target that tests texts with functions answers a test with one elementary
predicate and binds one text: the text it is given, or what is left of a pattern
without its stars.  All that the target adds is which functions it has, so what
a test says is settled here for every target at once.

What filter terms say of texts is stated for each target by itself, in its `Sense`.  A sense
*follows* the functions of a target if it has tests mean these functions, as far as the target has
them; tests are then true when they are said to be.
-/

namespace ResourceQuery

variable {σ C : Type}

/-! ## Predicates -/

namespace Pattern.Starred

/-- The column passes the test that the stars ask for. -/
def holds (s : Starred) (m : Meaning C) (c : C) : Bool :=
  match s.function? with
  | none => m.compares .eq c (.text s.inner)
  | some function => m.passes function c (.text s.inner)

theorem elementary_test (s : Starred) (c : C) (k : Nat) : (s.test c k).Elementary c k := by
  unfold test
  cases s.function? with
  | none => exact .comparison .eq
  | some function => exact .text function false

/-- The predicate for a pattern is true if the column passes the test for it. -/
theorem truth_test (s : Starred) {m : Meaning C} {values : Bindings} {c : C} {k : Nat}
    (hvalue : values.at k = .text s.inner) : (s.test c k).truth m values = s.holds m c := by
  unfold test holds
  cases s.function? with
  | none =>
    rw [Predicate.truth, hvalue]
    rfl
  | some function => rw [Predicate.truth, hvalue, Bool.bne_false]

end Pattern.Starred

namespace TextFunctions

variable {f : TextFunctions} {op : TextOperator} {c : C} {path text : String}
  {p p' : Progress σ} {q : Predicate C}

/-! ## Runs -/

/-- A pattern is tested if its stars stand at its ends and the target has the
function that they ask for. -/
theorem like_ok_iff : f.like c path text p = .ok (q, p') ↔
    ∃ s, Pattern.starred? text = some s ∧ f.takes s = true ∧ q = s.test c (p.values.length + 1) ∧
      p' = { p with values := p.values ++ [(path, .text s.inner)] } := by
  unfold like
  cases hfound : (Pattern.starred? text).filter f.takes with
  | none =>
    constructor
    · intro h
      exact absurd h Build.throw_ne_ok
    · rintro ⟨s, hs, htakes, _⟩
      rw [hs, Option.filter_some_pos htakes] at hfound
      cases hfound
  | some s =>
    obtain ⟨hs, htakes⟩ := Option.filter_eq_some_iff.1 hfound
    constructor
    · intro h
      obtain ⟨k, hbind, rfl⟩ := Build.bind_pure_ok_iff.1 h
      obtain ⟨rfl, rfl⟩ := Build.bind_value_ok_iff.1 hbind
      exact ⟨s, hs, htakes, rfl, rfl⟩
    · rintro ⟨s', hs', _, rfl, rfl⟩
      obtain rfl := Option.some.inj (hs.symm.trans hs')
      exact Build.bind_pure_ok_iff.2 ⟨_, Build.bind_value_ok_iff.2 ⟨rfl, rfl⟩, rfl⟩

/-- What a test against a text comes to: the text that is bound, and the
predicate with its marker. -/
inductive Tested (f : TextFunctions) (text : String) (c : C) (k : Nat) :
    TextOperator → String → Predicate C → Prop where
  | like {s : Pattern.Starred} (h : Pattern.starred? text = some s) (htakes : f.takes s = true) :
      Tested f text c k .like s.inner (s.test c k)
  | function {op : TextOperator} (h : op ≠ .like) :
      Tested f text c k op text (.text op.function (op = .lacks) c k)

/-- Every test that comes to a result binds one text and gives one predicate. -/
theorem test_ok (h : f.test op c path text p = .ok (q, p')) :
    ∃ value k, (Build.bind path (.text value) : Build σ Nat) p = .ok (k, p') ∧
      f.Tested text c k op value q := by
  unfold test at h
  by_cases hop : op = .like
  · rw [if_pos hop] at h
    obtain ⟨s, hs, htakes, rfl, rfl⟩ := like_ok_iff.1 h
    subst hop
    exact ⟨s.inner, _, Build.bind_value_ok_iff.2 ⟨rfl, rfl⟩, .like hs htakes⟩
  · rw [if_neg hop] at h
    obtain ⟨k, hbind, rfl⟩ := Build.bind_pure_ok_iff.1 h
    exact ⟨text, k, hbind, .function hop⟩

theorem Tested.elementary {k : Nat} {value : String} (h : f.Tested text c k op value q) :
    q.Elementary c k := by
  cases h with
  | @like s _ _ => exact s.elementary_test c k
  | function _ => exact .text _ _

/-- The pieces of a test keep its marker. -/
theorem markers_pieces (f : TextFunctions) (function : TextTest) (negated : Bool)
    (column : List Piece) (marker : Nat) (h : Piece.markers column = []) :
    Piece.markers (f.pieces function negated column marker) = [marker] := by
  simp [pieces, h]

/-! ## What tests say -/

/-- The tests of the sense are the functions of the target, where the target has them. -/
structure Followed (f : TextFunctions) (n : Sense C) : Prop where
  like : ∀ {text : String} {s : Pattern.Starred}, Pattern.starred? text = some s →
    f.takes s = true → ∀ c, n.tests .like c text = s.holds n.toMeaning c
  function : ∀ {op : TextOperator}, op ≠ .like → op ≠ .lacks → op.function ∈ f.available →
    ∀ c text, n.tests op c text = n.passes op.function c (.text text)

theorem mem_of_refused_eq_none (h : f.refused op = none) :
    op = .like ∨ op.function ∈ f.available := by
  unfold refused at h
  split at h
  · assumption
  · cases h

/-- A test says what it is asked to say, once its text is bound. -/
theorem Tested.truth_eq {n : Sense C} (hn : f.Followed n) (hrefused : f.refused op = none) {k : Nat}
    {value : String} (h : f.Tested text c k op value q) {values : Bindings}
    (hvalue : values.at k = .text value) :
    q.truth n.toMeaning values =
      if op = .lacks then !n.tests .contains c text else n.tests op c text := by
  cases h with
  | @like s hs htakes => rw [if_neg (by decide), s.truth_test hvalue, hn.like hs htakes]
  | function hlike =>
    have hmem := (mem_of_refused_eq_none hrefused).resolve_left hlike
    rw [Predicate.truth, hvalue]
    by_cases hlacks : op = .lacks
    · subst hlacks
      have hcontains : n.tests .contains c text = n.passes .contains c (.text text) :=
        hn.function (by decide : TextOperator.contains ≠ .like) (by decide) hmem c text
      rw [if_pos rfl, hcontains]
      exact Bool.bne_true _
    · rw [if_neg hlacks, hn.function hlike hlacks hmem, decide_eq_false hlacks, Bool.bne_false]

theorem settles_test {grows : σ → σ → Prop} (hg : Growth grows) {n : Sense C} (hn : f.Followed n)
    (hrefused : f.refused op = none) (h : f.test op c path text p = .ok (q, p')) :
    Settles grows p p' fun g => q.truth n.toMeaning g.values =
      if op = .lacks then !n.tests .contains c text else n.tests op c text := by
  obtain ⟨value, k, hbind, htested⟩ := test_ok h
  exact (settles_bind hg hbind).mono fun g hvalue => htested.truth_eq hn hrefused hvalue

end TextFunctions
end ResourceQuery

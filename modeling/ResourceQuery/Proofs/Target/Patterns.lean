import ResourceQuery.Proofs.Document.Filters
import ResourceQuery.Proofs.KeyValue.Filters
import ResourceQuery.Proofs.Statement.Patterns

set_option autoImplicit false

/-!
# Targets: patterns without a matcher

Document queries and key-value requests do not match patterns.  They take a
pattern with stars at its ends only, and emit a test for the text between the
stars.  Each of them takes the patterns that it has a test for, and the test
passes for the texts that match the `LIKE` pattern.

What a pattern accepts and what a test holds of are both stated for texts of any
length.  They are compared in two steps: a pattern with stars at its ends is
taken apart (`starred?_eq_some_iff`), and each way of taking it apart has its
test (`holds_construct_iff`).
-/

namespace ResourceQuery

namespace Pattern

/-! ## Stars at the ends -/

/-- The characters are stars, then a text that is not empty and has no star, then stars. -/
structure Framed (cs : List Char) (before : Nat) (inner : List Char) (after : Nat) : Prop where
  ne_nil : inner ≠ []
  starless : '*' ∉ inner
  eq : cs = List.replicate before '*' ++ (inner ++ List.replicate after '*')

/-- Stars in front of anything else are dropped. -/
theorem dropWhile_stars (n : Nat) {cs : List Char} (h : cs.head? ≠ some '*') :
    (List.replicate n '*' ++ cs).dropWhile (· == '*') = cs := by
  induction n with
  | zero =>
    cases cs with
    | nil => rfl
    | cons c cs =>
      have hc : (c == '*') = false := beq_eq_false_iff_ne.2 fun hc => h (congrArg some hc)
      rw [List.replicate_zero, List.nil_append, List.dropWhile_cons, hc, if_neg Bool.false_ne_true]
  | succ n ih =>
    rw [List.replicate_succ, List.cons_append, List.dropWhile_cons, beq_self_eq_true, if_pos rfl, ih]

/-- What is dropped are stars. -/
theorem exists_stars (cs : List Char) :
    ∃ n, cs = List.replicate n '*' ++ cs.dropWhile (· == '*') := by
  induction cs with
  | nil => exact ⟨0, rfl⟩
  | cons c cs ih =>
    by_cases hc : c = '*'
    · obtain ⟨n, hn⟩ := ih
      subst hc
      refine ⟨n + 1, ?_⟩
      rw [List.dropWhile_cons, beq_self_eq_true, if_pos rfl, List.replicate_succ, List.cons_append,
        ← hn]
    · refine ⟨0, ?_⟩
      rw [List.dropWhile_cons, beq_eq_false_iff_ne.2 hc, if_neg Bool.false_ne_true]
      rfl

namespace Framed

variable {cs inner : List Char} {before after : Nat}

theorem head?_inner (h : Framed cs before inner after) (rest : List Char) :
    (inner ++ rest).head? ≠ some '*' := by
  intro hhead
  obtain ⟨c, inner, rfl⟩ := List.exists_cons_of_ne_nil h.ne_nil
  rw [List.cons_append, List.head?_cons] at hhead
  exact h.starless (Option.some.inj hhead ▸ List.mem_cons_self)

theorem reverse (h : Framed cs before inner after) :
    Framed cs.reverse after inner.reverse before where
  ne_nil hnil := h.ne_nil (List.reverse_eq_nil_iff.1 hnil)
  starless hmem := h.starless (List.mem_reverse.1 hmem)
  eq := by
    rw [h.eq, List.reverse_append, List.reverse_append, List.reverse_replicate,
      List.reverse_replicate, List.append_assoc]

theorem head?_eq (h : Framed cs before inner after) :
    decide (cs.head? = some '*') = decide (0 < before) := by
  rw [h.eq]
  cases before with
  | zero =>
    rw [List.replicate_zero, List.nil_append, decide_eq_false (h.head?_inner _)]
    rfl
  | succ n => rfl

theorem getLast?_eq (h : Framed cs before inner after) :
    decide (cs.getLast? = some '*') = decide (0 < after) := by
  rw [← List.head?_reverse]
  exact h.reverse.head?_eq

theorem withoutStars_eq (h : Framed cs before inner after) : withoutStars cs = inner := by
  have hback := h.reverse.head?_inner []
  rw [List.append_nil] at hback
  rw [withoutStars, h.eq, dropWhile_stars before (h.head?_inner _), List.reverse_append,
    List.reverse_replicate, dropWhile_stars after hback, List.reverse_reverse]

end Framed

theorem framed_withoutStars {cs : List Char} (hne : withoutStars cs ≠ [])
    (hstarless : '*' ∉ withoutStars cs) :
    ∃ before after, Framed cs before (withoutStars cs) after := by
  obtain ⟨before, hbefore⟩ := exists_stars cs
  obtain ⟨after, hafter⟩ := exists_stars (cs.dropWhile (· == '*')).reverse
  refine ⟨before, after, hne, hstarless, ?_⟩
  have hrest := congrArg List.reverse hafter
  rw [List.reverse_reverse, List.reverse_append, List.reverse_replicate] at hrest
  rw [withoutStars, ← hrest]
  exact hbefore

/-- A pattern is taken apart when its stars are all at its ends, around some text. -/
theorem starred?_eq_some_iff {pattern : String} {s : Starred} :
    starred? pattern = some s ↔ ∃ before after,
      Framed pattern.toList before s.inner.toList after ∧
        s.leading = decide (0 < before) ∧ s.trailing = decide (0 < after) := by
  unfold starred?
  dsimp only
  constructor
  · intro h
    by_cases hrefused : withoutStars pattern.toList = [] ∨
        (withoutStars pattern.toList).contains '*' = true
    · rw [if_pos hrefused] at h
      cases h
    · rw [if_neg hrefused] at h
      obtain ⟨hne, hstarless⟩ := not_or.1 hrefused
      rw [List.contains_iff_mem] at hstarless
      obtain ⟨before, after, hframed⟩ := framed_withoutStars hne hstarless
      obtain rfl := Option.some.inj h
      refine ⟨before, after, ?_, hframed.head?_eq, hframed.getLast?_eq⟩
      rw [String.toList_ofList]
      exact hframed
  · rintro ⟨before, after, hframed, hleading, htrailing⟩
    have hstarless : ¬s.inner.toList.contains '*' = true := by
      rw [List.contains_iff_mem]
      exact hframed.starless
    rw [hframed.withoutStars_eq, if_neg (not_or.2 ⟨hframed.ne_nil, hstarless⟩), hframed.head?_eq,
      hframed.getLast?_eq, ← hleading, ← htrailing, String.ofList_toList]

/-! ## Tests for a text -/

/-- A test of a column against a text that is bound. -/
inductive Construct where
  | equality
  | startsWith
  | endsWith
  | contains
  deriving DecidableEq, Repr, Inhabited

/-- The text in the column passes the test against the bound one. -/
def Construct.Holds (bound text : List Char) : Construct → Prop
  | .equality => text = bound
  | .startsWith => bound <+: text
  | .endsWith => bound <:+ text
  | .contains => bound <:+: text

/-- The test that a pattern with stars at its ends asks for. -/
def Starred.construct (s : Starred) : Construct :=
  if s.leading then if s.trailing then .contains else .endsWith
  else if s.trailing then .startsWith else .equality

/-- Any number of stars stands for any text; no stars for none. -/
theorem accepts_stars_iff (n : Nat) {pattern text : List Char} :
    accepts ((List.replicate n '*').flatMap (likeChar true) ++ pattern) text = true ↔
      ∃ front rest, text = front ++ rest ∧ (n = 0 → front = []) ∧ accepts pattern rest = true := by
  induction n generalizing text with
  | zero =>
    constructor
    · intro haccepts
      exact ⟨[], text, rfl, fun _ => rfl, haccepts⟩
    · rintro ⟨front, rest, rfl, hfront, haccepts⟩
      rw [hfront rfl]
      exact haccepts
  | succ n ih =>
    have hany : (List.replicate (n + 1) '*').flatMap (likeChar true) ++ pattern =
        '%' :: ((List.replicate n '*').flatMap (likeChar true) ++ pattern) := rfl
    rw [hany, accepts_anyText_iff]
    constructor
    · rintro ⟨front, _, rfl, haccepts⟩
      obtain ⟨more, rest, rfl, _, hend⟩ := ih.1 haccepts
      refine ⟨front ++ more, rest, ?_, fun hzero => absurd hzero (Nat.succ_ne_zero n), hend⟩
      rw [List.append_assoc]
    · rintro ⟨front, rest, rfl, _, haccepts⟩
      exact ⟨front, rest, rfl, ih.2 ⟨[], rest, rfl, fun _ => rfl, haccepts⟩⟩

/-- Around a text without stars, the stars in front and behind decide how the
text has to occur. -/
theorem Framed.accepts_iff {cs inner text : List Char} {before after : Nat}
    (h : Framed cs before inner after) :
    accepts (likeChars .like cs) text = true ↔
      ∃ front rest, text = front ++ (inner ++ rest) ∧ (before = 0 → front = []) ∧
        (after = 0 → rest = []) := by
  have hpattern : likeChars .like cs = (List.replicate before '*').flatMap (likeChar true) ++
      (inner.flatMap (likeChar true) ++
        ((List.replicate after '*').flatMap (likeChar true) ++ [])) := by
    change cs.flatMap (likeChar true) = _
    rw [h.eq, List.flatMap_append, List.flatMap_append, List.append_nil]
  rw [hpattern, accepts_stars_iff]
  constructor
  · rintro ⟨front, _, rfl, hfront, haccepts⟩
    obtain ⟨_, rfl, hback⟩ := (accepts_escaped_iff fun _ => h.starless).1 haccepts
    obtain ⟨rest, last, rfl, hrest, hnil⟩ := (accepts_stars_iff after).1 hback
    rw [accepts_nil_iff.1 hnil, List.append_nil]
    exact ⟨front, rest, rfl, hfront, hrest⟩
  · rintro ⟨front, rest, rfl, hfront, hrest⟩
    have hlast : accepts ((List.replicate after '*').flatMap (likeChar true) ++ []) rest = true :=
      (accepts_stars_iff after).2 ⟨rest, [], (List.append_nil rest).symm, hrest, rfl⟩
    exact ⟨front, inner ++ rest, rfl, hfront,
      (accepts_escaped_iff fun _ => h.starless).2 ⟨rest, rfl, hlast⟩⟩

/-- The test passes for the texts that match the pattern. -/
theorem holds_construct_iff {pattern : String} {s : Starred} (h : starred? pattern = some s)
    (text : String) :
    s.construct.Holds s.inner.toList text.toList ↔ Matches (like .like pattern) text := by
  obtain ⟨before, after, hframed, hleading, htrailing⟩ := starred?_eq_some_iff.1 h
  have hchars : (like .like pattern).toList = likeChars .like pattern.toList :=
    String.toList_ofList
  rw [Matches, hchars, hframed.accepts_iff, Starred.construct, hleading, htrailing]
  -- which of the two texts around the inner one are empty is told by the stars there are
  rcases Nat.eq_zero_or_pos before with rfl | hbefore <;>
    rcases Nat.eq_zero_or_pos after with rfl | hafter
  · constructor
    · intro htext
      exact ⟨[], [], htext.trans (List.append_nil _).symm, fun _ => rfl, fun _ => rfl⟩
    · rintro ⟨front, rest, htext, hfront, hrest⟩
      rw [hfront rfl, hrest rfl, List.append_nil] at htext
      exact htext
  · rw [decide_eq_true hafter]
    constructor
    · rintro ⟨rest, htext⟩
      exact ⟨[], rest, htext.symm, fun _ => rfl, fun hzero => absurd hzero (Nat.ne_of_gt hafter)⟩
    · rintro ⟨front, rest, htext, hfront, _⟩
      rw [hfront rfl] at htext
      exact ⟨rest, htext.symm⟩
  · rw [decide_eq_true hbefore]
    constructor
    · rintro ⟨front, htext⟩
      refine ⟨front, [], ?_, fun hzero => absurd hzero (Nat.ne_of_gt hbefore), fun _ => rfl⟩
      rw [List.append_nil, htext]
    · rintro ⟨front, rest, htext, _, hrest⟩
      rw [hrest rfl, List.append_nil] at htext
      exact ⟨front, htext.symm⟩
  · rw [decide_eq_true hbefore, decide_eq_true hafter]
    constructor
    · rintro ⟨front, rest, htext⟩
      refine ⟨front, rest, ?_, fun hzero => absurd hzero (Nat.ne_of_gt hbefore),
        fun hzero => absurd hzero (Nat.ne_of_gt hafter)⟩
      rw [← htext, List.append_assoc]
    · rintro ⟨front, rest, htext, _, _⟩
      refine ⟨front, rest, ?_⟩
      rw [htext, List.append_assoc]

end Pattern

open Pattern FilterText

/-! ## Targets without a matcher -/

/-- A test was emitted for the pattern: one text is bound, and the construct
that was written for it holds of the texts that match the `LIKE` pattern. -/
def Emitted {σ : Type} (written : Construct → Option String) (path pattern text : String)
    (p p' : Progress σ) : Prop :=
  ∃ (construct : Construct) (bound : String), written construct = some text ∧
    p' = { p with values := p.values ++ [(path, .text bound)] } ∧
    ∀ x : String, construct.Holds bound.toList x.toList ↔ Matches (Pattern.like .like pattern) x

namespace Pattern

/-- The test that a function stands for. -/
def Construct.ofFunction : TextTest → Construct
  | .endsWith => .endsWith
  | .contains => .contains
  | .startsWith | .pattern => .startsWith

theorem Starred.construct_eq (s : Starred) :
    s.construct = (s.function?.map Construct.ofFunction).getD .equality := by
  obtain ⟨leading, trailing, inner⟩ := s
  cases leading <;> cases trailing <;> rfl

end Pattern

namespace TextFunctions

variable {σ C : Type} {f : TextFunctions} {c : C} {path pattern : String} {p p' : Progress σ}
  {q : Predicate C}

/-- The patterns with stars at ends that the target takes are accepted. -/
theorem like_accepts_iff : (∃ q p', f.like c path pattern p = .ok (q, p')) ↔
    ∃ before inner after, Framed pattern.toList before inner after ∧
      f.takes ⟨decide (0 < before), decide (0 < after), String.ofList inner⟩ = true := by
  constructor
  · rintro ⟨q, p', h⟩
    obtain ⟨s, hs, htakes, _⟩ := like_ok_iff.1 h
    obtain ⟨before, after, hframed, hleading, htrailing⟩ := starred?_eq_some_iff.1 hs
    refine ⟨before, s.inner.toList, after, hframed, ?_⟩
    rw [String.ofList_toList, ← hleading, ← htrailing]
    exact htakes
  · rintro ⟨before, inner, after, hframed, htakes⟩
    have hs : starred? pattern =
        some ⟨decide (0 < before), decide (0 < after), String.ofList inner⟩ := by
      refine starred?_eq_some_iff.2 ⟨before, after, ?_, rfl, rfl⟩
      rw [String.toList_ofList]
      exact hframed
    exact ⟨_, _, like_ok_iff.2 ⟨_, hs, htakes, rfl, rfl⟩⟩

/-! ## Texts of tests -/

/-- A column and a bound value with a sign of equality between them. -/
theorem text_equality (ph : Phrasing C) (sp : Spelling) (c : C) (k : Nat) :
    Piece.textAll sp ((Predicate.comparison .eq c k).pieces ph) =
      Piece.textAll sp (ph.column c) ++ " = " ++ sp.marker k := by
  have hsign : s!" {Comparison.eq.sign ph.notEqual} " = " = " := by
    change " " ++ "=" ++ " " = " = "
    decide
  rw [Predicate.pieces, hsign, textAll_append, textAll_cons, textAll_singleton,
    ← String.append_assoc]
  rfl

/-- A function of a column and a bound value. -/
theorem text_pieces (f : TextFunctions) (sp : Spelling) (function : TextTest) (column : List Piece)
    (k : Nat) : Piece.textAll sp (f.pieces function false column k) =
      f.opening function ++ Piece.textAll sp column ++ ", " ++ sp.marker k ++ ")" := by
  rw [pieces, List.cons_append, List.cons_append, textAll_cons, textAll_cons, textAll_append,
    textAll_cons, textAll_cons, textAll_singleton]
  simp only [Piece.text, Bool.false_eq_true, if_false, String.empty_append, String.append_assoc]

/-- A target that writes equalities and calls as it is told emits tests that
hold of the texts that match. -/
theorem emitted_of_like {ph : Phrasing C} {sp : Spelling} (hph : ph.text = f.pieces)
    {written : Construct → Option String}
    (hequality : written .equality =
      some (Piece.textAll sp (ph.column c) ++ " = " ++ sp.marker (p.values.length + 1)))
    (hcalls : ∀ function ∈ f.available, written (.ofFunction function) =
      some (f.opening function ++ Piece.textAll sp (ph.column c) ++ ", " ++
        sp.marker (p.values.length + 1) ++ ")"))
    (h : f.like c path pattern p = .ok (q, p')) :
    Emitted written path pattern (Piece.textAll sp (q.pieces ph)) p p' := by
  obtain ⟨s, hs, htakes, rfl, rfl⟩ := like_ok_iff.1 h
  refine ⟨s.construct, s.inner, ?_, rfl, holds_construct_iff hs⟩
  rw [s.construct_eq, Starred.test]
  cases hfunction : s.function? with
  | none => exact hequality.trans (congrArg some (text_equality ph sp c _).symm)
  | some function =>
    rw [takes, hfunction, Option.all_some, List.contains_iff_mem] at htakes
    dsimp only
    rw [Predicate.pieces, hph, text_pieces]
    exact hcalls function htakes

end TextFunctions

/-! ## Document queries -/

namespace Document

/-- The tests of document queries as they are written. -/
def written (column marker : String) : Construct → Option String
  | .equality => some (column ++ " = " ++ marker)
  | .startsWith => some ("STARTSWITH(" ++ column ++ ", " ++ marker ++ ")")
  | .endsWith => some ("ENDSWITH(" ++ column ++ ", " ++ marker ++ ")")
  | .contains => none

/-- Stars at one end at most. -/
theorem takes_iff (before after : Nat) (inner : String) :
    functions.takes ⟨decide (0 < before), decide (0 < after), inner⟩ = true ↔
      before = 0 ∨ after = 0 := by
  have htakes : ∀ leading trailing : Bool,
      functions.takes ⟨leading, trailing, inner⟩ = !(leading && trailing) := by
    intro leading trailing
    cases leading <;> cases trailing <;> rfl
  rw [htakes, Bool.not_eq_true', Bool.and_eq_false_iff, decide_eq_false_iff_not,
    decide_eq_false_iff_not]
  omega

end Document

/-! ## Key-value requests -/

namespace KeyValue

/-- The tests of key-value requests as they are written. -/
def written (column marker : String) : Construct → Option String
  | .equality => some (column ++ " = " ++ marker)
  | .startsWith => some ("begins_with(" ++ column ++ ", " ++ marker ++ ")")
  | .endsWith => none
  | .contains => some ("contains(" ++ column ++ ", " ++ marker ++ ")")

/-- No stars in front without stars behind. -/
theorem takes_iff (before after : Nat) (inner : String) :
    functions.takes ⟨decide (0 < before), decide (0 < after), inner⟩ = true ↔
      before = 0 ∨ 0 < after := by
  have htakes : ∀ leading trailing : Bool,
      functions.takes ⟨leading, trailing, inner⟩ = (!leading || trailing) := by
    intro leading trailing
    cases leading <;> cases trailing <;> rfl
  rw [htakes, Bool.or_eq_true, Bool.not_eq_true', decide_eq_false_iff_not, decide_eq_true_iff]
  omega

end KeyValue

/-! ## Both targets -/

/-- A document query takes a text without stars, with stars behind it or with
stars in front of it, a key-value request one without stars, with stars behind
it or with stars on both sides.  The test that either of them emits holds of the
texts that match the `LIKE` pattern. -/
theorem Target.patterns_match_alike (path pattern : String) :
    (∀ (c : Document.Column) (p : Progress Unit),
      ((∃ q p', Document.functions.like c path pattern p = .ok (q, p')) ↔
        ∃ before inner after, Framed pattern.toList before inner after ∧
          (before = 0 ∨ after = 0)) ∧
      ∀ q p', Document.functions.like c path pattern p = .ok (q, p') →
        Emitted (Document.written
            (Piece.textAll Document.spelling (Document.columnPieces c))
            (Document.spelling.marker (p.values.length + 1)))
          path pattern (Piece.textAll Document.spelling (q.pieces Document.phrasing)) p p') ∧
    (∀ (c : KeyValue.Column) (p : Progress KeyValue.Names),
      ((∃ q p', KeyValue.functions.like c path pattern p = .ok (q, p')) ↔
        ∃ before inner after, Framed pattern.toList before inner after ∧
          (before = 0 ∨ 0 < after)) ∧
      ∀ q p', KeyValue.functions.like c path pattern p = .ok (q, p') →
        Emitted (KeyValue.written
            (Piece.textAll KeyValue.spelling (KeyValue.columnPieces c))
            (KeyValue.spelling.marker (p.values.length + 1)))
          path pattern (Piece.textAll KeyValue.spelling (q.pieces KeyValue.phrasing)) p p') := by
  simp only [TextFunctions.like_accepts_iff, Document.takes_iff, KeyValue.takes_iff, iff_self,
    true_and]
  constructor
  · intro c p q p' h
    refine TextFunctions.emitted_of_like rfl rfl (fun function hmem => ?_) h
    have hcases : function = .startsWith ∨ function = .endsWith := by
      simpa [Document.functions] using hmem
    rcases hcases with rfl | rfl <;> rfl
  · intro c p q p' h
    refine TextFunctions.emitted_of_like rfl rfl (fun function hmem => ?_) h
    have hcases : function = .startsWith ∨ function = .contains := by
      simpa [KeyValue.functions] using hmem
    rcases hcases with rfl | rfl <;> rfl

theorem Target.patterns_match_alike_of_percent :
    KeyValue.functions.like [1] "label" "**50%*" ⟨[], ["Label"]⟩ =
      .ok (.text .contains false [1] 1, ⟨[("label", .text "50%")], ["Label"]⟩) ∧
    Piece.textAll KeyValue.spelling
      ((Predicate.text .contains false [1] 1).pieces KeyValue.phrasing) =
        "contains(#name1, :val1)" ∧
    ∀ x : String, "50%".toList <:+: x.toList ↔ Matches "%%50\\%%" x := by
  have hlike : KeyValue.functions.like [1] "label" "**50%*" ⟨[], ["Label"]⟩ =
      .ok (.text .contains false [1] 1, ⟨[("label", .text "50%")], ["Label"]⟩) := by
    rfl
  have htext : Piece.textAll KeyValue.spelling
      ((Predicate.text .contains false [1] 1).pieces KeyValue.phrasing) =
        "contains(#name1, :val1)" := by
    decide +kernel
  have hpattern : Pattern.like .like "**50%*" = "%%50\\%%" := by decide
  obtain ⟨construct, bound, hwritten, hbound, hholds⟩ :=
    ((patterns_match_alike "label" "**50%*").2 [1] ⟨[], ["Label"]⟩).2 _ _ hlike
  rw [htext] at hwritten
  rw [hpattern] at hholds
  have hcontains : construct = .contains := by
    cases construct with
    | contains => rfl
    | equality => exact absurd hwritten (by decide +kernel)
    | startsWith => exact absurd hwritten (by decide +kernel)
    | endsWith => cases hwritten
  cases hbound
  subst hcontains
  exact ⟨hlike, htext, hholds⟩

end ResourceQuery

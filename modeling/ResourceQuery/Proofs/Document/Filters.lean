import ResourceQuery.Document.Query
import ResourceQuery.Proofs.FilterText.Predicates
import ResourceQuery.Proofs.Statement.TextFunctions

set_option autoImplicit false

/-!
# Document queries: what filters say

How the filters of a document query are heard, and that they say what their
terms say.  Segments are quoted without a thought of backslashes, so all of this
is for properties that have none.

The shape of the argument is that of every target.  The phrases of the target
are read as signs, the signs mean what the phrase is for (`clear_voice`), the
compiler gives only predicates that there are phrases for (`dialog_whole`), and
their truth is what the terms were asked to say (`dialog_truthful`).  `spoken`
puts the four together.
-/

namespace ResourceQuery.Document

open FilterText

/-! ## The language -/

/-- The reader of filters. -/
def reader : Reader where
  closing c := if c = '"' then some '"' else none
  escapes := true
  alone := ['(', ')', ',', '[', ']', '?', ':']
  leads := ['@']

/-- The signs of one segment. -/
def segment (s : String) : List Sign := [.mark '[', .quoted s, .mark ']']

/-- The signs of a property. -/
def property (c : Column) : List Sign := .word "c" :: c.flatMap segment

/-- A function of a property. -/
def calls (f : String) (c : Column) : List Sign := .word f :: enclosed (property c)

/-- The property is an empty text. -/
def emptied (c : Column) : List Sign := property c ++ [.word "=", .quoted ""]

/-- The function of a text test. -/
def testWord (test : TextTest) : String := if test = .endsWith then "ENDSWITH" else "STARTSWITH"

/-- How filters are heard. -/
def voice : Voice Column where
  reader := reader
  spelling := spelling
  phrasing := phrasing
  column := property
  null ρ c := !ρ (calls "IS_DEFINED" c) || ρ (calls "IS_NULL" c)
  blank ρ c _ := !ρ (calls "IS_DEFINED" c) || ρ (calls "IS_NULL" c) || ρ (emptied c)
  passes ρ test c value :=
    ρ (.word (testWord test) :: enclosed (property c ++ [.mark ',', .value value]))

/-- No segment of the property has a backslash. -/
def Plain (c : Column) : Prop := ∀ s ∈ c, '\\' ∉ s.toList

theorem fluent_reader : Fluent reader := fluent_of_isFluent (by decide)

/-- A marker is a word that the reader knows for one. -/
theorem marker_ok (k : Nat) : (spelling.marker k).toList ≠ [] ∧
    (∀ c ∈ (spelling.marker k).toList, reader.isLetter c = true) ∧
    reader.isMarker (spelling.marker k) = true :=
  Reader.marker_numbered fluent_reader.digits "@param" rfl rfl (by decide) k

theorem signs_marker (k : Nat) : Signs reader spelling [.marker k] [.marker k] :=
  .marker (marker_ok k).1 (marker_ok k).2.1

/-! ## Properties -/

theorem toList_quoteSegment (s : String) : (quoteSegment s).toList =
    '"' :: (s.toList.flatMap (fun c => if c = '"' then ['\\', c] else [c]) ++ ['"']) := by
  simp only [quoteSegment, String.toList_append, String.toList_ofList, List.append_assoc]
  rfl

/-- A quoted segment is read as the segment. -/
theorem closes_quoteSegment {s : String} (h : '\\' ∉ s.toList) :
    reader.Closes (quoteSegment s).toList [.quoted s] := by
  have hquote : reader.closing '"' = some '"' := rfl
  have hcloses := Reader.closes_escaped rfl (by decide) hquote (by decide) h
  rw [String.ofList_toList] at hcloses
  rwa [toList_quoteSegment]

theorem signs_segments {c : Column} (h : Plain c) :
    Signs reader spelling (c.flatMap fun s => [.fixed "[", .name s, .fixed "]"])
      (c.flatMap segment) := by
  induction c with
  | nil => exact .nil
  | cons s c ih =>
    have hopening : Fixed reader "[" [.mark '['] := by decide
    have hclosing : Fixed reader "]" [.mark ']'] := by decide
    have hrest := ih fun s' hs' => h s' (List.mem_cons_of_mem s hs')
    have hname : reader.Closes ((Piece.name s).text spelling).toList [.quoted s] :=
      closes_quoteSegment (h s List.mem_cons_self)
    have hwhole := Signs.fixed hopening
      (.closed hname (Steady.quoted s).fixed (.fixed hclosing hrest))
    exact hwhole

/-- The text of a property is read as one word and its quoted segments in brackets. -/
theorem signs_column {c : Column} (h : Plain c) :
    Signs reader spelling (columnPieces c) (property c) := by
  have hroot : Signs reader spelling [.fixed "c"] [.word "c"] :=
    .word (by decide) (List.all_eq_true.1 (by decide)) rfl
  cases c with
  | nil => exact hroot
  | cons s c => exact hroot.append ⟨'[', [], rfl, rfl⟩ (signs_segments h)

theorem steady_segment (s : String) : Steady reader (segment s) := by
  have hmark : ∀ c, (Sign.mark c).isFlat = true → affirms [.mark c] = true →
      Steady reader [.mark c] := by
    refine fun c hflat haffirms => ⟨fun x hx => ?_, fun x hx => ?_, haffirms⟩
    · rw [List.mem_singleton.1 hx]; rfl
    · rw [List.mem_singleton.1 hx]; exact hflat
  exact (hmark '[' (by decide) (by decide)).append
    ((Steady.quoted s).append (hmark ']' (by decide) (by decide)))

theorem steady_column (c : Column) : Steady reader (property c) := by
  have hsegments : Steady reader (c.flatMap segment) := by
    induction c with
    | nil =>
      exact ⟨fun _ h => absurd h List.not_mem_nil, fun _ h => absurd h List.not_mem_nil, rfl⟩
    | cons s c ih => exact (steady_segment s).append ih
  have hfirst : "c".toList.head? = some 'c' := rfl
  have hroot : Steady reader [.word "c"] := .word hfirst (by decide) rfl
  exact hroot.append hsegments

theorem markers_column (c : Column) : markers (property c) = [] :=
  markers_of_fixed (steady_column c).fixed

theorem property_ne_nil (c : Column) : property c ≠ [] := List.cons_ne_nil _ _

/-! ## Tests -/

theorem means_defined (c : Column) :
    Means .negation (calls "IS_DEFINED" c) fun _ ρ => ρ (calls "IS_DEFINED" c) :=
  (steady_of_isPlain (by decide)).means_function (steady_column c)

theorem means_null (c : Column) :
    Means .negation (calls "IS_NULL" c) fun _ ρ => ρ (calls "IS_NULL" c) :=
  (steady_of_isPlain (by decide)).means_function (steady_column c)

theorem markers_calls (f : String) (c : Column) : markers (calls f c) = [] := by
  rw [calls, markers_word, markers_enclosed, markers_column]

/-- The signs of `absent`. -/
def absentSigns (c : Column) : List Sign :=
  .word "NOT" :: (calls "IS_DEFINED" c ++ .word "OR" :: calls "IS_NULL" c)

/-- The signs of `present`. -/
def presentSigns (c : Column) : List Sign :=
  calls "IS_DEFINED" c ++ .word "AND" :: .word "NOT" :: calls "IS_NULL" c

theorem signs_absent {c : Column} (h : Plain c) :
    Signs reader spelling (absent (columnPieces c)) (absentSigns c) := by
  have hr := fluent_reader
  have hopening : Fixed reader "NOT IS_DEFINED(" [.word "NOT", .word "IS_DEFINED", .mark '('] := by
    decide
  have hor : Fixed reader ") OR IS_NULL(" [.mark ')', .word "OR", .word "IS_NULL", .mark '('] := by
    decide
  have hwhole := ((Signs.fixed hopening (signs_column h)).between ⟨')', _, rfl, rfl⟩ hor
    (signs_column h)).before hr.closes hr.closing
  simpa [absent, absentSigns, calls, enclosed] using hwhole

theorem signs_present {c : Column} (h : Plain c) :
    Signs reader spelling (present (columnPieces c)) (presentSigns c) := by
  have hr := fluent_reader
  have hopening : Fixed reader "IS_DEFINED(" [.word "IS_DEFINED", .mark '('] := by decide
  have hand : Fixed reader ") AND NOT IS_NULL("
      [.mark ')', .word "AND", .word "NOT", .word "IS_NULL", .mark '('] := by decide
  have hwhole := ((Signs.fixed hopening (signs_column h)).between ⟨')', _, rfl, rfl⟩ hand
    (signs_column h)).before hr.closes hr.closing
  simpa [present, presentSigns, calls, enclosed] using hwhole

/-- A property is null if it is missing or holds the null value, so the test is
two functions joined by a connective. -/
theorem tells_nullity {c : Column} (h : Plain c) (isNull : Bool) :
    voice.Tells (phrasing.nullity isNull (columnPieces c)) []
      fun _ ρ => voice.null ρ c == isNull := by
  have hr := fluent_reader
  cases isNull with
  | true =>
    have hmeans := ((means_defined c).not.conjunct.either (means_null c).conjunct.disjunct).enclosed
    refine ⟨_, .fixed hr.opening ((signs_absent h).before hr.closes hr.closing), ?_,
      hmeans.congr fun values ρ => ?_⟩
    · simp [absentSigns, markers_calls]
    · simp [voice]
  | false =>
    have hmeans := ((means_defined c).both (means_null c).not.conjunct).disjunct.enclosed
    refine ⟨_, .fixed hr.opening ((signs_present h).before hr.closes hr.closing), ?_,
      hmeans.congr fun values ρ => ?_⟩
    · simp [presentSigns, markers_calls]
    · simp [voice]

/-- The property is an empty text, or it is not. -/
theorem means_empty (c : Column) (isEmpty : Bool) :
    Means .negation (property c ++ [.word (if isEmpty then "=" else "!="), .quoted ""])
      fun _ ρ => ρ (emptied c) == isEmpty := by
  have hflat : ∀ s ∈ [Sign.word (if isEmpty then "=" else "!="), .quoted ""], s.isFlat = true := by
    refine List.all_eq_true.1 ?_
    cases isEmpty <;> decide
  refine ((steady_column c).means (property_ne_nil c) hflat).congr fun values ρ => ?_
  cases isEmpty <;> rfl

theorem tells_blankness {c : Column} (h : Plain c) (isBlank : Bool) :
    voice.Tells (phrasing.blankness isBlank (columnPieces c) none) []
      fun _ ρ => voice.blank ρ c none == isBlank := by
  have hr := fluent_reader
  cases isBlank with
  | true =>
    have hempty : Fixed reader " = \"\"" [.word "=", .quoted ""] := by decide
    have hsigns := Signs.fixed hr.opening (((signs_absent h).between (parts_blank rfl) hr.disjunction
      ((signs_column h).before (parts_blank rfl) hempty)).before hr.closes hr.closing)
    have hmeans := ((means_defined c).not.conjunct.either ((means_null c).conjunct.either
      (means_empty c true).conjunct.disjunct)).enclosed
    refine ⟨_, ?_, ?_, hmeans.congr fun values ρ => ?_⟩
    · change Signs reader spelling (phrasing.blankness true (columnPieces c) none) _
      simpa [enclosed, phrasing, Predicate.enclosed, absentSigns] using hsigns
    · simp [markers_calls, markers_column]
    · simp [voice, Bool.or_assoc]
  | false =>
    have hempty : Fixed reader " != \"\"" [.word "!=", .quoted ""] := by decide
    have hsigns := Signs.fixed hr.opening (((signs_present h).between (parts_blank rfl)
      hr.conjunction ((signs_column h).before (parts_blank rfl) hempty)).before hr.closes hr.closing)
    have hmeans := ((means_defined c).both ((means_null c).not.both
      (means_empty c false).conjunct)).disjunct.enclosed
    refine ⟨_, ?_, ?_, hmeans.congr fun values ρ => ?_⟩
    · change Signs reader spelling (phrasing.blankness false (columnPieces c) none) _
      simpa [enclosed, phrasing, Predicate.enclosed, presentSigns] using hsigns
    · simp [markers_calls, markers_column]
    · simp [voice, Bool.and_assoc]

/-- A text test is a call of its function, with `NOT` in front if it is denied. -/
theorem tells_text {c : Column} (h : Plain c) (test : TextTest) (negated : Bool) (k : Nat) :
    voice.Tells (phrasing.text test negated (columnPieces c) k) [k]
      fun values ρ => voice.passes ρ test c (values.at k) != negated := by
  have hword : reader.isPlain (testWord test) = true := by cases test <;> decide
  have hopening : functions.opening test = testWord test ++ "(" := by cases test <;> decide
  exact .function fluent_reader functions hword hopening (signs_column h) (steady_column c)
    (signs_marker k) negated

/-- The test for an empty value binds nothing. -/
def Unmarked (marker : Option Nat) : Prop := marker = none

/-- The phrases tell what they are for. -/
theorem clear_voice : voice.Clear Plain True Unmarked where
  fluent := fluent_reader
  deciding _ := ⟨by decide, by decide⟩
  unequal := .inr rfl
  marker := signs_marker
  isMarker k := (marker_ok k).2.2
  column := signs_column
  steady _ := steady_column _
  ne_nil _ := property_ne_nil _
  nullity := tells_nullity
  blankness := by
    rintro c hc marker rfl isBlank
    exact tells_blankness hc isBlank
  text := tells_text

/-! ## What the compiler gives -/

theorem resolve_ok {root : Collection} {path : String} {p p' : Progress Unit} {c : Column}
    {property : Property} (h : resolve root path p = .ok ((c, property), p')) :
    ColumnPath.inside backend root path = .ok (c, property) ∧ p = p' :=
  Build.lookup_ok_iff.1 h

theorem dialog_issues (root : Collection) : (dialog root).Issues fun _ _ => True where
  resolve h := by
    obtain ⟨_, rfl⟩ := resolve_ok h
    exact ⟨trivial, rfl⟩
  test := by
    intro op c path text p p' q _ h
    obtain ⟨value, k, hbind, htested⟩ := TextFunctions.test_ok h
    rw [htested.elementary.slots_eq]
    exact Build.issued_bind trivial hbind
  unlike := by
    intro q
    cases q <;> rfl
  outside c markers := rfl
  blankness := by
    intro isBlank c path p p' q _ h
    obtain ⟨rfl, rfl⟩ := Build.pure_ok_iff.1 h
    exact .of_values_eq rfl

/-- The compiler gives only predicates that the target has phrases for. -/
theorem dialog_whole (root : Collection) : (dialog root).Whole Plain True Unmarked where
  deciding _ := trivial
  test := by
    intro op c path text p p' q hc h
    obtain ⟨value, k, _, htested⟩ := TextFunctions.test_ok h
    exact htested.elementary.whole hc
  unlike := by
    intro q h
    cases q with
    | text test negated c k =>
      cases h with
      | text _ _ hc _ => exact .text test (!negated) hc k
    | _ => exact .negation h
  outside markers hc := .membership true hc markers
  blankness := by
    intro isBlank c path p p' q hc h
    obtain ⟨rfl, rfl⟩ := Build.pure_ok_iff.1 h
    exact .blankness isBlank hc rfl

/-! ## What the compiler settles -/

/-- Nothing is kept beside the values. -/
theorem growth : Growth (fun _ _ : Unit => True) where
  refl _ := trivial
  trans _ _ := trivial

/-- What filter terms say, from what filters mean. -/
def sense (m : Meaning Column) : Sense Column where
  toMeaning := m
  tests op c text :=
    match op with
    | .like => (Pattern.starred? text).any fun s =>
      if s.trailing then m.passes .startsWith c (.text s.inner)
      else if s.leading then m.passes .endsWith c (.text s.inner)
      else m.compares .eq c (.text s.inner)
    | .startsWith => m.passes .startsWith c (.text text)
    | _ => m.passes .endsWith c (.text text)
  empty c := m.blank c none

theorem followed_sense (m : Meaning Column) : functions.Followed (sense m) where
  like := by
    rintro text ⟨leading, trailing, inner⟩ hs htakes c
    change (Pattern.starred? text).any _ = _
    rw [hs, Option.any_some]
    cases leading <;> cases trailing
    case true.true => exact absurd htakes Bool.false_ne_true
    all_goals rfl
  function := by
    intro op hlike hlacks hmem c text
    cases op with
    | like => exact absurd rfl hlike
    | lacks => exact absurd rfl hlacks
    | contains => exact absurd hmem (by decide)
    | startsWith | endsWith => rfl

theorem truth_unlike (root : Collection) (q : Predicate Column) (m : Meaning Column)
    (values : Bindings) : ((dialog root).unlike q).truth m values = !q.truth m values := by
  cases q with
  | text test negated c k =>
    change (Predicate.text test (!negated) c k).truth m values = _
    rw [Predicate.truth, Predicate.truth, Bool.bne_not]
  | _ => exact Predicate.truth_negation _

/-- The predicates of the compiler are true where their terms are, with the
bound values put in for the markers. -/
theorem dialog_truthful (root : Collection) (m : Meaning Column) :
    (dialog root).Truthful (fun _ _ : Unit => True) (sense m) where
  growth := growth
  resolve := by
    intro path p p' found h
    obtain ⟨c, property⟩ := found
    obtain ⟨hinside, rfl⟩ := resolve_ok h
    refine ⟨⟨List.prefix_rfl, trivial⟩, fun f hf => ?_⟩
    have hfound : resolve root path f = .ok ((c, property), f) := Build.lookup_ok_iff.2 ⟨hinside, rfl⟩
    change (resolve root path f).toOption.map Prod.fst = _
    rw [hfound]
    rfl
  test hrefused h := TextFunctions.settles_test growth (followed_sense m) hrefused h
  like := rfl
  unlike q values := truth_unlike root q _ values
  outside c markers values := by
    change (Predicate.membership true c markers).truth _ _ = _
    rw [Predicate.truth, Bool.bne_true]
  blankness := by
    intro isBlank c path p p' q h
    obtain ⟨rfl, rfl⟩ := Build.pure_ok_iff.1 h
    exact ⟨growth.later_refl _, fun f _ => by rw [Predicate.truth]; rfl⟩

/-- The filters of the document target say what their terms say, of properties
without backslashes. -/
theorem spoken (root : Collection) :
    Spoken (dialog root) voice Plain (fun _ _ : Unit => True) sense where
  forms := ⟨True, Unmarked, clear_voice, dialog_whole root⟩
  issues := ⟨_, dialog_issues root⟩
  truthful := dialog_truthful root
  toMeaning _ := rfl

/-! ## Paths without backslashes -/

/-- The path leads to a property without backslashes, if it leads anywhere. -/
def plainPath (root : Collection) (path : String) : Bool :=
  (ColumnPath.inside backend root path).toOption.all fun found =>
    found.1.all fun s => !s.toList.contains '\\'

/-- The columns that a term and those in it name are without backslashes. -/
def plainTerm (root : Collection) (t : Term) : Bool :=
  t.subterms.all fun u => u.column.toOption.all (plainPath root)

theorem plain_of_plainPath {root : Collection} {path : String} {c : Column} {property : Property}
    (h : plainPath root path = true) (hinside : ColumnPath.inside backend root path = .ok (c, property)) :
    Plain c := by
  intro s hs hslash
  rw [plainPath, hinside] at h
  have hall : (c.all fun s => !s.toList.contains '\\') = true := h
  have hnot := List.all_eq_true.1 hall s hs
  rw [List.contains_iff_mem.2 hslash] at hnot
  cases hnot

theorem finds_of_plainTerm {root : Collection} {t : Term} (h : plainTerm root t = true) :
    (dialog root).Finds Plain t := by
  intro u hu p p' path c property ha
  have hcolumn := List.all_eq_true.1 h u hu
  rw [ha.path_eq] at hcolumn
  exact plain_of_plainPath hcolumn (resolve_ok ha.resolves).1

end ResourceQuery.Document

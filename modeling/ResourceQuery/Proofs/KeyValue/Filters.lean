import ResourceQuery.Proofs.FilterText.Predicates
import ResourceQuery.Proofs.KeyValue.Names
import ResourceQuery.Proofs.Statement.TextFunctions

set_option autoImplicit false

/-!
# Key-value requests: what conditions say

How the conditions of a key-value request are heard, and that they say what
their terms say.

As for the other targets, `spoken` rests on four facts: how phrases are read,
what they mean, which predicates the compiler gives, and that these are true
where the terms are.  Attributes are written by the stand-ins of their segments,
which a later name never changes, so what was compiled early means the same in
the finished request.
-/

namespace ResourceQuery.KeyValue

open FilterText

/-! ## The language -/

/-- The reader of conditions.  There are no quotes in them. -/
def reader : Reader where
  closing _ := none
  escapes := false
  alone := ['(', ')', ',', '.']
  leads := [':']

/-- The stand-in of a name, as it is written. -/
def standIn (k : Nat) : String := "#name" ++ toString k

/-- Stand-ins with points between them. -/
def dotted : List Nat → List Sign
  | [] => []
  | [k] => [.word (standIn k)]
  | k :: ks => .word (standIn k) :: .mark '.' :: dotted ks

/-- The attribute exists. -/
def exists_ (c : Column) : List Sign := .word "attribute_exists" :: enclosed (dotted c)

/-- The function of a text test. -/
def testWord (test : TextTest) : String := if test = .contains then "contains" else "begins_with"

/-- How conditions are heard. -/
def voice : Voice Column where
  reader := reader
  spelling := spelling
  phrasing := phrasing
  column := dotted
  null ρ c := !ρ (exists_ c)
  blank ρ c value :=
    !ρ (exists_ c) || ρ (dotted c ++ [.word "=", .value (value.getD .null)])
  passes ρ test c value :=
    ρ (.word (testWord test) :: enclosed (dotted c ++ [.mark ',', .value value]))

theorem fluent_reader : Fluent reader := fluent_of_isFluent (by decide)

/-- A marker is a word that the reader knows for one. -/
theorem marker_ok (k : Nat) : (spelling.marker k).toList ≠ [] ∧
    (∀ c ∈ (spelling.marker k).toList, reader.isLetter c = true) ∧
    reader.isMarker (spelling.marker k) = true :=
  Reader.marker_numbered fluent_reader.digits ":val" rfl rfl (by decide) k

theorem signs_marker (k : Nat) : Signs reader spelling [.marker k] [.marker k] :=
  .marker (marker_ok k).1 (marker_ok k).2.1

theorem head?_standIn (k : Nat) : (standIn k).toList.head? = some '#' := by
  rw [standIn, String.toList_append]
  rfl

theorem steady_standIn (k : Nat) : Steady reader [.word (standIn k)] :=
  .word (head?_standIn k) (by decide) rfl

theorem signs_field (k : Nat) : Signs reader spelling [.field k] [.word (standIn k)] := by
  have hne : (standIn k).toList ≠ [] := by
    rw [standIn, String.toList_append]
    exact List.append_ne_nil_of_left_ne_nil (by decide) _
  exact Signs.word hne (Reader.isLetter_numbered fluent_reader.digits (by decide) k)
    ((steady_standIn k).fixed _ (List.mem_singleton_self _))

/-- An attribute is read as its stand-ins with points between them. -/
theorem signs_column (c : Column) : Signs reader spelling (columnPieces c) (dotted c) := by
  unfold columnPieces
  induction c with
  | nil => exact .nil
  | cons k ks ih =>
    cases ks with
    | nil => exact signs_field k
    | cons k' ks =>
      have hpoint : Fixed reader "." [.mark '.'] := by decide
      exact (signs_field k).between ⟨'.', [], rfl, rfl⟩ hpoint ih

theorem steady_column (c : Column) : Steady reader (dotted c) := by
  induction c with
  | nil =>
    exact ⟨fun _ h => absurd h List.not_mem_nil, fun _ h => absurd h List.not_mem_nil, rfl⟩
  | cons k ks ih =>
    cases ks with
    | nil => exact steady_standIn k
    | cons k' ks =>
      have hpoint : Steady reader [.mark '.'] := by
        refine ⟨fun s hs => ?_, fun s hs => ?_, by decide⟩
        · rw [List.mem_singleton.1 hs]; rfl
        · rw [List.mem_singleton.1 hs]; rfl
      exact (steady_standIn k).append (hpoint.append ih)

theorem dotted_ne_nil {c : Column} (h : c ≠ []) : dotted c ≠ [] := by
  cases c with
  | nil => exact absurd rfl h
  | cons k ks =>
    cases ks with
    | nil => exact List.cons_ne_nil _ _
    | cons k' ks => exact List.cons_ne_nil _ _

theorem markers_column (c : Column) : markers (dotted c) = [] :=
  markers_of_fixed (steady_column c).fixed

/-! ## Tests -/

/-- The attribute exists, or it does not. -/
theorem means_existence (c : Column) (isNull : Bool) :
    Means .negation
      (.word (if isNull then "attribute_not_exists" else "attribute_exists") :: enclosed (dotted c))
      fun _ ρ => (!ρ (exists_ c)) == isNull := by
  have hflat := (steady_column c).flat
  have haffirms : ∀ values, affirms ((dotted c).map (Sign.ground values)) = true := by
    intro values
    rw [(steady_column c).map_ground, (steady_column c).positive]
  cases isNull with
  | true =>
    refine (Means.call (by decide) (by decide) hflat haffirms).congr fun values ρ => ?_
    rw [(steady_column c).map_ground]
    change (ρ (exists_ c) == false) = _
    cases ρ (exists_ c) <;> rfl
  | false =>
    refine (Means.call (by decide) (by decide) hflat haffirms).congr fun values ρ => ?_
    rw [(steady_column c).map_ground]
    change (ρ (exists_ c) == true) = _
    cases ρ (exists_ c) <;> rfl

/-- An attribute is null if it does not exist. -/
theorem tells_nullity (c : Column) (isNull : Bool) :
    voice.Tells (phrasing.nullity isNull (columnPieces c)) []
      fun _ ρ => voice.null ρ c == isNull := by
  have hopening : Fixed reader
      (if isNull then "attribute_not_exists(" else "attribute_exists(")
      [.word (if isNull then "attribute_not_exists" else "attribute_exists"), .mark '('] := by
    cases isNull <;> decide
  refine ⟨_, .fixed hopening ((signs_column c).before fluent_reader.closes fluent_reader.closing),
    ?_, means_existence c isNull⟩
  simp [markers_column]

/-- The attribute is compared with a value. -/
theorem means_comparison {c : Column} (hc : c ≠ []) (k : Nat) (isEqual : Bool) :
    Means .negation (dotted c ++ [.word (if isEqual then "=" else "<>"), .marker k])
      fun values ρ => ρ (dotted c ++ [.word "=", .value (values.at k)]) == isEqual := by
  have hflat : ∀ s ∈ [Sign.word (if isEqual then "=" else "<>"), .marker k], s.isFlat = true := by
    refine List.all_eq_true.1 ?_
    cases isEqual <;> rfl
  refine ((steady_column c).means (dotted_ne_nil hc) hflat).congr fun values ρ => ?_
  cases isEqual with
  | true =>
    have haffirms : affirms [.word "=", .value (values.at k)] = true := by
      simp [affirms, Sign.positive]
    change (ρ (dotted c ++ positives [.word "=", .value (values.at k)]) ==
      affirms [.word "=", .value (values.at k)]) = _
    rw [positives_of_affirms haffirms, haffirms]
  | false =>
    have hpositives : positives [.word "<>", .value (values.at k)] =
        [.word "=", .value (values.at k)] := by
      simp [positives, Sign.positive]
    have haffirms : affirms [.word "<>", .value (values.at k)] = false := by
      simp [affirms, Sign.positive]
    change (ρ (dotted c ++ positives [.word "<>", .value (values.at k)]) ==
      affirms [.word "<>", .value (values.at k)]) = _
    rw [hpositives, haffirms]

theorem tells_blankness {c : Column} (hc : c ≠ []) (k : Nat) (isBlank : Bool) :
    voice.Tells (phrasing.blankness isBlank (columnPieces c) (some k)) [k]
      fun values ρ => voice.blank ρ c (some (values.at k)) == isBlank := by
  have hcolumn := signs_column c
  have hr := fluent_reader
  cases isBlank with
  | true =>
    have hopening : Fixed reader "(attribute_not_exists("
        [.mark '(', .word "attribute_not_exists", .mark '('] := by decide
    have hor : Fixed reader ") OR " [.mark ')', .word "OR"] := by decide
    have hequals : Fixed reader " = " [.word "="] := by decide
    have hsigns := (((Signs.fixed hopening hcolumn).between ⟨')', [' ', 'O', 'R', ' '], rfl, rfl⟩ hor
      hcolumn).between (parts_blank rfl) hequals (signs_marker k)).before hr.closes hr.closing
    have hmeans := ((means_existence c true).conjunct.either
      (means_comparison hc k true).conjunct.disjunct).enclosed
    refine ⟨_, ?_, ?_, hmeans.congr fun values ρ => ?_⟩
    · change Signs reader spelling (phrasing.blankness true (columnPieces c) (some k)) _
      simpa [enclosed, phrasing] using hsigns
    · simp [markers_column]
    · simp [voice]
  | false =>
    have hopening : Fixed reader "(attribute_exists("
        [.mark '(', .word "attribute_exists", .mark '('] := by decide
    have hand : Fixed reader ") AND " [.mark ')', .word "AND"] := by decide
    have hunequal : Fixed reader " <> " [.word "<>"] := by decide
    have hsigns := (((Signs.fixed hopening hcolumn).between ⟨')', [' ', 'A', 'N', 'D', ' '], rfl, rfl⟩
      hand hcolumn).between (parts_blank rfl) hunequal (signs_marker k)).before hr.closes hr.closing
    have hmeans := ((means_existence c false).both
      (means_comparison hc k false).conjunct).disjunct.enclosed
    refine ⟨_, ?_, ?_, hmeans.congr fun values ρ => ?_⟩
    · change Signs reader spelling (phrasing.blankness false (columnPieces c) (some k)) _
      simpa [enclosed, phrasing] using hsigns
    · simp [markers_column]
    · simp [voice]

/-- A text test is a call of its function, with `NOT` in front if it is denied. -/
theorem tells_text (test : TextTest) (negated : Bool) (c : Column) (k : Nat) :
    voice.Tells (phrasing.text test negated (columnPieces c) k) [k]
      fun values ρ => voice.passes ρ test c (values.at k) != negated := by
  have hword : reader.isPlain (testWord test) = true := by cases test <;> decide
  have hopening : functions.opening test = testWord test ++ "(" := by cases test <;> decide
  exact .function fluent_reader functions hword hopening (signs_column c) (steady_column c)
    (signs_marker k) negated

/-- The attribute has a name. -/
def Named (c : Column) : Prop := c ≠ []

/-- The empty text that an attribute is compared with has a marker. -/
def Marked (marker : Option Nat) : Prop := marker.isSome = true

/-- The phrases tell what they are for. -/
theorem clear_voice : voice.Clear Named False Marked where
  fluent := fluent_reader
  deciding := False.elim
  unequal := .inl rfl
  marker := signs_marker
  isMarker k := (marker_ok k).2.2
  column _ := signs_column _
  steady _ := steady_column _
  ne_nil hc := dotted_ne_nil hc
  nullity _ isNull := tells_nullity _ isNull
  blankness := by
    intro c hc marker hmarker isBlank
    obtain ⟨k, rfl⟩ := Option.isSome_iff_exists.1 hmarker
    exact tells_blankness hc k isBlank
  text _ test negated k := tells_text test negated _ k

/-! ## What the compiler gives -/

theorem dialog_issues (root : Collection) : (dialog root).Issues fun _ _ => True where
  resolve h := by
    obtain ⟨_, _, _, hvalues⟩ := resolve_ok h
    exact ⟨trivial, hvalues⟩
  test := by
    intro op c path text p p' q _ h
    obtain ⟨value, k, hbind, htested⟩ := TextFunctions.test_ok h
    rw [htested.elementary.slots_eq]
    exact Build.issued_bind trivial hbind
  unlike q := by
    change (Predicate.negation q).slots = _
    rw [Predicate.slots]
  outside c markers := by
    change (Predicate.negation (.membership false c markers)).slots = _
    rw [Predicate.slots, Predicate.slots]
  blankness := by
    intro isBlank c path p p' q _ h
    obtain ⟨k, hbind, rfl⟩ := Build.bind_pure_ok_iff.1 h
    rw [Predicate.slots]
    exact Build.issued_bind trivial hbind

/-- The compiler gives only predicates that the target has phrases for. -/
theorem dialog_whole (root : Collection) : (dialog root).Whole Named False Marked where
  deciding h := by cases h
  test := by
    intro op c path text p p' q hc h
    obtain ⟨value, k, _, htested⟩ := TextFunctions.test_ok h
    exact htested.elementary.whole hc
  unlike h := .negation h
  outside markers hc := .negation (.membership false hc markers)
  blankness := by
    intro isBlank c path p p' q hc h
    obtain ⟨k, _, rfl⟩ := Build.bind_pure_ok_iff.1 h
    exact .blankness isBlank hc rfl

/-- The columns of paths have segments. -/
theorem dialog_finds (root : Collection) (t : Term) : (dialog root).Finds Named t := by
  rintro u _ p p' path c property ha rfl
  obtain ⟨segments, hinside, hnames, _⟩ := resolve_ok ha.resolves
  have hstands := (interned_nameIndexes segments p.scope).stands
  rw [hnames] at hstands
  cases hstands
  exact ne_nil_of_inside hinside rfl

/-! ## What the compiler settles -/

/-- Names are only added behind those that are known. -/
theorem growth : Growth (fun names names' : Names => names <+: names') where
  refl _ := List.prefix_rfl
  trans h h' := h.trans h'

/-- What filter terms say, from what conditions mean. -/
def sense (m : Meaning Column) : Sense Column where
  toMeaning := m
  tests op c text :=
    match op with
    | .like => (Pattern.starred? text).any fun s =>
      if s.leading then m.passes .contains c (.text s.inner)
      else if s.trailing then m.passes .startsWith c (.text s.inner)
      else m.compares .eq c (.text s.inner)
    | .startsWith => m.passes .startsWith c (.text text)
    | _ => m.passes .contains c (.text text)
  empty c := m.blank c (some (.text ""))

theorem followed_sense (m : Meaning Column) : functions.Followed (sense m) where
  like := by
    rintro text ⟨leading, trailing, inner⟩ hs htakes c
    change (Pattern.starred? text).any _ = _
    rw [hs, Option.any_some]
    cases leading <;> cases trailing
    case true.false => exact absurd htakes Bool.false_ne_true
    all_goals rfl
  function := by
    intro op hlike hlacks hmem c text
    cases op with
    | like => exact absurd rfl hlike
    | lacks => exact absurd rfl hlacks
    | endsWith => exact absurd hmem (by decide)
    | startsWith | contains => rfl

/-- The predicates of the compiler are true where their terms are, with the
bound values put in for the markers. -/
theorem dialog_truthful (root : Collection) (m : Meaning Column) :
    (dialog root).Truthful (fun names names' : Names => names <+: names') (sense m) where
  growth := growth
  resolve := by
    intro path p p' found h
    obtain ⟨c, property⟩ := found
    obtain ⟨segments, hinside, hnames, hvalues⟩ := resolve_ok h
    have hgrows := (interned_nameIndexes segments p.scope).grows
    rw [hnames] at hgrows
    refine ⟨⟨hvalues ▸ List.prefix_rfl, hgrows⟩, fun f hf => ?_⟩
    have hlater : nameIndexes f.scope segments = (c, f.scope) := by
      have hf' : (nameIndexes p.scope segments).2 <+: f.scope := by
        rw [hnames]
        exact hf.scope
      rw [nameIndexes_later segments hf', hnames]
    have hfound : resolve root path f = .ok ((c, property), f) := by
      unfold resolve
      refine Build.lookup_bind_ok_iff.2 ⟨(segments, property), hinside,
        Build.bind_ok_iff.2 ⟨f, f, rfl, ?_⟩⟩
      dsimp only
      rw [hlater]
      rfl
    change (resolve root path f).toOption.map Prod.fst = _
    rw [hfound]
    rfl
  test hrefused h := TextFunctions.settles_test growth (followed_sense m) hrefused h
  like := rfl
  unlike q values := Predicate.truth_negation q
  outside c markers values := by
    change (Predicate.negation (.membership false c markers)).truth _ _ = _
    rw [Predicate.truth_negation, Predicate.truth, Bool.bne_false]
  blankness := by
    intro isBlank c path p p' q h
    obtain ⟨k, hbind, rfl⟩ := Build.bind_pure_ok_iff.1 h
    refine (settles_bind growth hbind).mono fun f hf => ?_
    rw [Predicate.truth, Option.map_some, hf]
    rfl

/-- The conditions of the key-value target say what their terms say. -/
theorem spoken (root : Collection) :
    Spoken (dialog root) voice Named (fun names names' : Names => names <+: names') sense where
  forms := ⟨False, Marked, clear_voice, dialog_whole root⟩
  issues := ⟨_, dialog_issues root⟩
  truthful := dialog_truthful root
  toMeaning _ := rfl

end ResourceQuery.KeyValue

import ResourceQuery.Proofs.FilterText.Vocabulary
import ResourceQuery.Proofs.KeyValue.KeyCondition
import ResourceQuery.Proofs.KeyValue.StandIns

set_option autoImplicit false

/-!
# Key-value requests: what stands in expressions

The expressions of a request consist of keywords, operators, punctuation,
stand-ins of names and markers of values.  The stand-ins are those that the map
of names explains, and the markers are those of the map of values, each once and
in order; the projection has none.

An expression carries two kinds of things: the stand-ins of its columns and the
markers of its values.  Both are read off the pieces (`mem_fields_pieces`,
`Piece.markers`), and the lexicon says that the text shows just these.  The rest
is what a plan introduces, from the first path to the last.
-/

namespace ResourceQuery

/-! ## Stand-ins among the pieces -/

namespace Piece

/-- The number of a stand-in. -/
def field? : Piece → Option Nat
  | field index => some index
  | _ => none

/-- The numbers of the stand-ins among the pieces, from left to right. -/
def fields (pieces : List Piece) : List Nat := pieces.filterMap field?

@[simp] theorem fields_nil : fields [] = [] := rfl

@[simp] theorem fields_append (ps qs : List Piece) : fields (ps ++ qs) = fields ps ++ fields qs :=
  List.filterMap_append

@[simp] theorem fields_fixed (text : String) (ps : List Piece) :
    fields (fixed text :: ps) = fields ps := rfl

@[simp] theorem fields_field (index : Nat) (ps : List Piece) :
    fields (field index :: ps) = index :: fields ps := rfl

@[simp] theorem fields_marker (index : Nat) (ps : List Piece) :
    fields (marker index :: ps) = fields ps := rfl

@[simp] theorem fields_join (glue : String) (parts : List (List Piece)) :
    fields (join glue parts) = parts.flatMap fields := by
  induction parts with
  | nil => rfl
  | cons part parts ih =>
    cases parts with
    | nil => simp [join]
    | cons next others =>
      rw [join_cons_cons, fields_append, fields_fixed, ih]
      simp only [List.flatMap_cons]

end Piece

namespace KeyValue

open FilterText Lexicon

@[simp] theorem fields_columnPieces (c : Column) : Piece.fields (columnPieces c) = c := by
  rw [columnPieces, Piece.fields_join, List.flatMap_map]
  exact List.flatMap_singleton' c

/-- A column is written with stand-ins alone. -/
@[simp] theorem markers_columnPieces (c : Column) : Piece.markers (columnPieces c) = [] := by
  rw [columnPieces, Piece.markers_join, List.flatMap_map]
  exact List.flatMap_eq_nil_iff.2 fun _ _ => rfl

theorem phrasing_faithful : phrasing.Faithful Marked where
  column := markers_columnPieces
  nullity isNull column h := by simp [phrasing, h]
  blankness isBlank column marker hmarker h := by
    obtain ⟨k, rfl⟩ := Option.isSome_iff_exists.1 hmarker
    cases isBlank <;> simp [phrasing, h]
  text := functions.markers_pieces

/-- The stand-ins in the text of a predicate are those of its columns. -/
theorem mem_fields_pieces {q : Predicate Column} (hq : q.Whole Named False Marked) (k : Nat) :
    k ∈ Piece.fields (q.pieces phrasing) ↔ ∃ c ∈ q.columns, k ∈ c := by
  have hjoin : ∀ {parts : List (Predicate Column)} {glue : String},
      (∀ q ∈ parts, k ∈ Piece.fields (q.pieces phrasing) ↔ ∃ c ∈ q.columns, k ∈ c) →
      (k ∈ Piece.fields (Predicate.enclosed (Piece.join glue (Predicate.piecesAll phrasing parts))) ↔
        ∃ c ∈ parts.flatMap Predicate.columns, k ∈ c) := by
    intro parts glue hparts
    have hfields : Piece.fields (Predicate.enclosed (Piece.join glue
        (Predicate.piecesAll phrasing parts))) =
          parts.flatMap fun q => Piece.fields (q.pieces phrasing) := by
      simp [Predicate.enclosed, Predicate.piecesAll_eq_map, List.flatMap_map]
    rw [hfields, List.mem_flatMap]
    constructor
    · rintro ⟨q, hq, hk⟩
      obtain ⟨c, hc, hk⟩ := (hparts q hq).1 hk
      exact ⟨c, List.mem_flatMap.2 ⟨q, hq, hc⟩, hk⟩
    · rintro ⟨c, hc, hk⟩
      obtain ⟨q, hq, hc⟩ := List.mem_flatMap.1 hc
      exact ⟨q, hq, (hparts q hq).2 ⟨c, hc, hk⟩⟩
  induction hq with
  | all _ _ ih =>
    rw [Predicate.pieces, Predicate.columns_all]
    exact hjoin ih
  | any _ _ ih =>
    rw [Predicate.pieces, Predicate.columns_any]
    exact hjoin ih
  | negation _ ih =>
    rw [Predicate.pieces, Predicate.columns]
    simpa using ih
  | choice hconditional => exact hconditional.elim
  | comparison op _ marker => simp [Predicate.pieces, Predicate.columns, phrasing]
  | membership negated _ markers =>
    simp [Predicate.pieces, Predicate.columns, phrasing, List.flatMap_map]
  | nullity isNull _ => simp [Predicate.pieces, Predicate.columns, phrasing]
  | blankness isBlank _ hmarker =>
    obtain ⟨k', rfl⟩ := Option.isSome_iff_exists.1 hmarker
    cases isBlank <;> simp [Predicate.pieces, Predicate.columns, phrasing]
  | text test negated _ marker =>
    simp [Predicate.pieces, Predicate.columns, phrasing, TextFunctions.pieces]

/-! ## Keywords and phrases -/

/-- The words and operators that are written whatever is asked for. -/
def keywords : List String :=
  ["AND", "OR", "NOT", "IN", "=", "<>", "<", "<=", ">", ">=", "attribute_exists",
   "attribute_not_exists", "begins_with", "contains"]

/-- The signs of the fixed texts. -/
def fixedSigns : List Sign := keywords.map .word ++ reader.alone.map .mark

/-- The fixed texts.  No expression ends with one that a word could run on behind. -/
@[simp] def phrases : List String :=
  [".", " = ", " <> ", " < ", " <= ", " > ", " >= ", "attribute_not_exists(", "attribute_exists(",
   "(attribute_not_exists(", "(attribute_exists(", ") OR ", ") AND ", "contains(", "begins_with("]

/-- Each of these texts is read as fixed signs, with nothing left open behind it. -/
theorem phrases_close :
    (connectives ++ phrases).all (reader.closesIn fixedSigns) = true := by
  decide +kernel

/-! ## The lexicon -/

/-- The word is a stand-in of a name or a marker. -/
def isMark (w : String) : Bool := w.toList.head? = some '#' || w.toList.head? = some ':'

/-- What expressions are made of, and the stand-ins and markers in them. -/
def lexicon : Lexicon String where
  reader := reader
  spelling := spelling
  fixed := fixedSigns
  extra s := (∃ k, s = .word (standIn k)) ∨ ∃ k, s = .marker k
  content s := (s.spelled spelling.marker).word?.toList.filter isMark
  payload p := (Piece.fields [p]).map standIn ++ (Piece.markers [p]).map spelling.marker
  fixed_isFixed := by decide
  fixed_content := by decide
  fixed_payload _ := rfl

theorem knows : lexicon.Knows phrases [] := ⟨fluent_reader, phrases_close, rfl⟩

theorem head?_marker (k : Nat) : (spelling.marker k).toList.head? = some ':' := by
  have htext : (spelling.marker k).toList = ":val".toList ++ (toString k).toList :=
    String.toList_append
  rw [htext]
  rfl

theorem isMark_standIn (k : Nat) : isMark (standIn k) = true := by
  rw [isMark, head?_standIn]
  rfl

theorem isMark_marker (k : Nat) : isMark (spelling.marker k) = true := by
  rw [isMark, head?_marker]
  rfl

/-- A stand-in is a word that stands for itself. -/
theorem shows_field (k : Nat) : lexicon.Shows [.field k] := by
  refine ⟨_, signs_field k, fun s hs => .inr (.inl ⟨k, List.mem_singleton.1 hs⟩), ?_⟩
  have hcontent : lexicon.content (.word (standIn k)) = [standIn k] :=
    List.filter_cons_of_pos (isMark_standIn k)
  rw [List.flatMap_singleton, List.flatMap_singleton, hcontent]
  rfl

theorem shows_marker (k : Nat) : lexicon.Shows [.marker k] := by
  refine ⟨_, signs_marker k, fun s hs => .inr (.inr ⟨k, List.mem_singleton.1 hs⟩), ?_⟩
  have hcontent : lexicon.content (.marker k) = [spelling.marker k] :=
    List.filter_cons_of_pos (isMark_marker k)
  rw [List.flatMap_singleton, List.flatMap_singleton, hcontent]
  rfl

theorem shows_column (c : Column) : lexicon.Shows (columnPieces c) := by
  refine .join (parts_mark rfl rfl) (knows.phrase (by simp)) fun part hpart => ?_
  obtain ⟨k, _, rfl⟩ := List.mem_map.1 hpart
  exact shows_field k

theorem shows_nullity (c : Column) (isNull : Bool) :
    lexicon.Shows (phrasing.nullity isNull (columnPieces c)) := by
  cases isNull <;>
    exact .fixed (knows.phrase (by simp)) ((shows_column c).before (parts_mark rfl rfl)
      (knows.phrase (by simp)))

theorem shows_blankness (c : Column) (k : Nat) (isBlank : Bool) :
    lexicon.Shows (phrasing.blankness isBlank (columnPieces c) (some k)) := by
  cases isBlank with
  | true =>
    have hexists : lexicon.Shows (.fixed "(attribute_not_exists(" :: columnPieces c) :=
      .fixed (knows.phrase (by simp)) (shows_column c)
    have hor := hexists.between (parts_mark rfl rfl) (knows.phrase (by simp : ") OR " ∈ _))
      (shows_column c)
    have hequal := hor.between (parts_blank rfl) (knows.phrase (by simp : " = " ∈ _))
      (shows_marker k)
    exact hequal.before (parts_mark rfl rfl) (knows.phrase (by simp))
  | false =>
    have hexists : lexicon.Shows (.fixed "(attribute_exists(" :: columnPieces c) :=
      .fixed (knows.phrase (by simp)) (shows_column c)
    have hand := hexists.between (parts_mark rfl rfl)
      (knows.phrase (by simp : ") AND " ∈ _)) (shows_column c)
    have hunequal := hand.between (parts_blank rfl) (knows.phrase (by simp : " <> " ∈ _))
      (shows_marker k)
    exact hunequal.before (parts_mark rfl rfl) (knows.phrase (by simp))

theorem shows_text (c : Column) (test : TextTest) (negated : Bool) (k : Nat) :
    lexicon.Shows (phrasing.text test negated (columnPieces c) k) := by
  have hopening : lexicon.closes (functions.opening test) = true := by
    cases test <;> exact knows.phrase (by decide)
  exact knows.joins.function functions hopening (shows_column c) (shows_marker k) negated

/-- The lexicon has what predicates are written with. -/
theorem covers : lexicon.Covers phrasing Named False Marked where
  toJoins := knows.joins
  deciding := False.elim
  sign op := by
    cases op <;> exact knows.phrase (by decide)
  marker := shows_marker
  column _ := shows_column _
  nullity _ isNull := shows_nullity _ isNull
  blankness := by
    intro c _ marker hmarker isBlank
    obtain ⟨k, rfl⟩ := Option.isSome_iff_exists.1 hmarker
    exact shows_blankness c k isBlank
  text _ test negated k := shows_text _ test negated k

/-! ## Expressions as they are read -/

theorem mem_wordsWith {lead : Char} {signs : List Sign} {w : String} :
    w ∈ wordsWith lead signs ↔ .word w ∈ signs ∧ w.toList.head? = some lead := by
  rw [wordsWith, List.mem_filter, List.mem_filterMap, decide_eq_true_eq]
  refine and_congr_left fun _ => ⟨?_, fun h => ⟨_, h, rfl⟩⟩
  rintro ⟨s, hs, hw⟩
  cases s with
  | word text => exact Option.some.inj hw ▸ hs
  | _ => cases hw

theorem wordsWith_append (lead : Char) (signs signs' : List Sign) :
    wordsWith lead (signs ++ signs') = wordsWith lead signs ++ wordsWith lead signs' := by
  rw [wordsWith, List.filterMap_append, List.filter_append]
  rfl

/-- The stand-ins and markers that pieces carry, by their first characters. -/
theorem filter_payload (ps : List Piece) :
    (ps.flatMap lexicon.payload).filter (fun w => w.toList.head? = some '#') =
        (Piece.fields ps).map standIn ∧
      (ps.flatMap lexicon.payload).filter (fun w => w.toList.head? = some ':') =
        (Piece.markers ps).map spelling.marker := by
  induction ps with
  | nil => exact ⟨rfl, rfl⟩
  | cons p ps ih =>
    rw [List.flatMap_cons, List.filter_append, List.filter_append, ih.1, ih.2]
    cases p with
    | field k => simp [lexicon, head?_standIn]
    | marker k => simp [lexicon, head?_marker]
    | _ => exact ⟨rfl, rfl⟩

/-- The stand-ins and markers of a text are those of its pieces, and there is
nothing else in it but fixed signs. -/
theorem lex_of_shows {ps : List Piece} (h : lexicon.Shows ps) : ∃ signs,
    reader.lex (Piece.textAll spelling ps).toList = some signs ∧
      wordsWith '#' signs = (Piece.fields ps).map standIn ∧
      wordsWith ':' signs = (Piece.markers ps).map spelling.marker ∧
      ∀ s ∈ signs, s ∈ fixedSigns ∨ ∃ w, s = .word w ∧ isMark w = true := by
  obtain ⟨ss, hlex, _, hadmits, hcontent⟩ := h.lex_eq
  have hmarks : ((ss.map (Sign.spelled spelling.marker)).filterMap Sign.word?).filter isMark =
      ps.flatMap lexicon.payload := by
    rw [← hcontent, List.filterMap_eq_flatMap_toList, List.filter_flatMap, List.flatMap_map]
    rfl
  have hwords : ∀ lead, (∀ w : String, w.toList.head? = some lead → isMark w = true) →
      wordsWith lead (ss.map (Sign.spelled spelling.marker)) =
        (ps.flatMap lexicon.payload).filter fun w => w.toList.head? = some lead := by
    intro lead hlead
    rw [wordsWith, ← hmarks, List.filter_filter]
    refine List.filter_congr fun w _ => ?_
    by_cases hw : w.toList.head? = some lead
    · rw [hlead w hw, Bool.and_true]
    · rw [decide_eq_false hw, Bool.false_and]
  refine ⟨ss.map (Sign.spelled spelling.marker), hlex, ?_, ?_, fun s hs => ?_⟩
  · exact (hwords '#' fun w hw => by rw [isMark, hw]; rfl).trans (filter_payload ps).1
  · exact (hwords ':' fun w hw => by rw [isMark, hw]; rfl).trans (filter_payload ps).2
  · obtain ⟨s, hmem, rfl⟩ := List.mem_map.1 hs
    rcases hadmits s hmem with hfixed | ⟨k, rfl⟩ | ⟨k, rfl⟩
    · have hall : fixedSigns.all (fun s => s.spelled spelling.marker = s) = true := by
        decide +kernel
      have hsame := of_decide_eq_true (List.all_eq_true.1 hall s hfixed)
      exact .inl (by rw [hsame]; exact hfixed)
    · exact .inr ⟨standIn k, rfl, isMark_standIn k⟩
    · exact .inr ⟨spelling.marker k, rfl, isMark_marker k⟩

/-! ## Requests -/

/-- The columns of a predicate are those that the paths of its term lead to. -/
theorem dialog_concerns (root : Collection) : (dialog root).Concerns where
  test := by
    intro op c path text p p' q h
    obtain ⟨value, k, hbind, htested⟩ := TextFunctions.test_ok h
    obtain ⟨_, rfl⟩ := Build.bind_value_ok_iff.1 hbind
    exact ⟨htested.elementary.columns_eq, rfl⟩
  unlike q := by
    change (Predicate.negation q).columns = _
    rw [Predicate.columns]
  outside c markers := by
    change (Predicate.negation (.membership false c markers)).columns = _
    rw [Predicate.columns, Predicate.columns]
  blankness := by
    intro isBlank c path p p' q h
    obtain ⟨k, hbind, rfl⟩ := Build.bind_pure_ok_iff.1 h
    obtain ⟨_, rfl⟩ := Build.bind_value_ok_iff.1 hbind
    exact ⟨by rw [Predicate.columns], rfl⟩

/-- The paths that a request names: those of the columns to select, and those of its filter. -/
def usedPaths (r : ResourceQuery.Request) : List String :=
  (r.includes.flatMap fun t => t.path.toOption.toList) ++ r.filters.flatMap Term.paths

theorem markers_conjunction {qs : List (Predicate Column)}
    (h : ∀ q ∈ qs, q.Whole Named False Marked) :
    Piece.markers (Predicate.conjunction phrasing qs) =
      (qs.flatMap Predicate.slots).map Prod.snd := by
  rw [Predicate.conjunction, Piece.markers_join]
  exact Predicate.flatMap_markers_eq fun q hq =>
    Predicate.markers_pieces phrasing_faithful (h q hq).fits

theorem mem_fields_conjunction {qs : List (Predicate Column)}
    (h : ∀ q ∈ qs, q.Whole Named False Marked) (k : Nat) :
    k ∈ Piece.fields (Predicate.conjunction phrasing qs) ↔
      ∃ c ∈ qs.flatMap Predicate.columns, k ∈ c := by
  rw [Predicate.conjunction, Piece.fields_join, Predicate.piecesAll_eq_map, List.flatMap_map,
    List.mem_flatMap]
  constructor
  · rintro ⟨q, hq, hk⟩
    obtain ⟨c, hc, hk⟩ := (mem_fields_pieces (h q hq) k).1 hk
    exact ⟨c, List.mem_flatMap.2 ⟨q, hq, hc⟩, hk⟩
  · rintro ⟨c, hc, hk⟩
    obtain ⟨q, hq, hc⟩ := List.mem_flatMap.1 hc
    exact ⟨q, hq, (mem_fields_pieces (h q hq) k).2 ⟨c, hc, hk⟩⟩

theorem shows_conjunction {qs : List (Predicate Column)}
    (h : ∀ q ∈ qs, q.Whole Named False Marked) :
    lexicon.Shows (Predicate.conjunction phrasing qs) :=
  .join (parts_blank rfl) (knows.phrase (by simp)) (covers.shows_piecesAll h)

theorem shows_projection (cs : List Column) :
    lexicon.Shows (Piece.join ", " (cs.map columnPieces)) := by
  refine .join (parts_mark rfl rfl) (knows.phrase (by simp)) fun part hpart => ?_
  obtain ⟨c, _, rfl⟩ := List.mem_map.1 hpart
  exact shows_column c

theorem mem_fields_projection (cs : List Column) (k : Nat) :
    k ∈ Piece.fields (Piece.join ", " (cs.map columnPieces)) ↔ ∃ c ∈ cs, k ∈ c := by
  simp [List.flatMap_map]

theorem markers_projection (cs : List Column) :
    Piece.markers (Piece.join ", " (cs.map columnPieces)) = [] := by
  simp [List.flatMap_map]

/-- The text of parts, which is empty if there are none. -/
theorem getD_expression? (glue : String) (parts : List (List Piece)) :
    (expression? glue parts).getD "" = Piece.textAll spelling (Piece.join glue parts) := by
  unfold expression?
  split
  · next hempty =>
    rw [List.isEmpty_iff.1 hempty]
    rfl
  · rfl

section Course

variable {pl : Plan} {r : ResourceQuery.Request} {choice : Option KeyChoice}
  {p₁ p₂ p₃ : Progress Names}

/-- The conditions of a plan are such as the lexicon has words for. -/
theorem Plan.Course.whole (h : pl.Course r choice p₁ p₂ p₃) :
    (∀ q ∈ pl.conditions, q.Whole Named False Marked) ∧
      ∀ q ∈ pl.filters, q.Whole Named False Marked :=
  ⟨Dialog.whole_predicates (dialog_whole r.collection) (fun t _ => dialog_finds r.collection t)
      h.keyed,
    Dialog.whole_predicates (dialog_whole r.collection) (fun t _ => dialog_finds r.collection t)
      h.filtered⟩

/-- The names that a plan comes to know are the segments of the paths that the
request names, each once, and each has its stand-in in some column of the
plan. -/
theorem Plan.Course.names (h : pl.Course r choice p₁ p₂ p₃) :
    p₃.scope.Nodup ∧
      (∀ name, name ∈ p₃.scope ↔ ∃ path ∈ usedPaths r, ∃ segments,
        Leads r.collection path segments ∧ name ∈ segments) ∧
      ∀ k, (∃ c ∈ pl.projection ++
          (pl.conditions.flatMap Predicate.columns ++ pl.filters.flatMap Predicate.columns), k ∈ c) ↔
        0 < k ∧ k ≤ p₃.scope.length := by
  obtain ⟨columns, hselected, hprojection⟩ := h.selected
  have hconcerns := dialog_concerns r.collection
  have hemploys := (Dialog.employs_columns hselected).trans
    ((Dialog.employs_predicates hconcerns h.keyed).trans
      (Dialog.employs_predicates hconcerns h.filtered))
  rw [← hprojection] at hemploys
  refine names_of_employs (hemploys.congr (fun path => ?_) fun c => .rfl)
  rw [usedPaths, List.mem_append, List.mem_append, ← List.flatMap_append,
    (h.decided.perm.flatMap_right Term.paths).mem_iff]

/-- The stand-ins in the expressions are those of the known names. -/
theorem Plan.Course.mem_fields (h : pl.Course r choice p₁ p₂ p₃) (k : Nat) :
    k ∈ Piece.fields (Predicate.conjunction phrasing pl.conditions) ++
        Piece.fields (Predicate.conjunction phrasing pl.filters) ++
        Piece.fields (Piece.join ", " (pl.projection.map columnPieces)) ↔
      0 < k ∧ k ≤ p₃.scope.length := by
  simp only [← h.names.2.2, List.mem_append, mem_fields_conjunction h.whole.1,
    mem_fields_conjunction h.whole.2, mem_fields_projection, or_and_right, exists_or]
  exact or_comm

/-- The markers of the conditions are numbered one after the other, one for each value. -/
theorem Plan.Course.markers (h : pl.Course r choice p₁ p₂ p₃) :
    Piece.markers (Predicate.conjunction phrasing pl.conditions) ++
      Piece.markers (Predicate.conjunction phrasing pl.filters) =
        List.range' 1 p₃.values.length := by
  obtain ⟨columns, hselected, _⟩ := h.selected
  have hissues := dialog_issues r.collection
  obtain ⟨bound, hvalues, hnumbered⟩ := Issued.after
    (Dialog.values_eq_of_columns hissues hselected)
    ((Dialog.issued_predicates hissues h.keyed).trans
      (Dialog.issued_predicates hissues h.filtered))
  rw [markers_conjunction h.whole.1, markers_conjunction h.whole.2, ← List.map_append,
    hnumbered.numbers_eq, hvalues]
  rfl

end Course

/-- A request is closed.  The keys of its maps are numbered; the names are the
segments that its paths lead to, each once, and the values are those that were
bound.  The stand-ins in the expressions are the keys of the first map.  The
markers of the key condition and the filter are the keys of the second one, each
once and in order, and the projection has none.  Everything else in the
expressions is fixed. -/
theorem compile_closed (config : Config) (r : ResourceQuery.Request) (req : Request)
    (h : compile config r = .ok req) :
    ∃ (names : List String) (condition filter projection : List Sign),
      names.Nodup ∧
      (∀ name, name ∈ names ↔ ∃ path ∈ usedPaths r, ∃ segments,
        Leads r.collection path segments ∧ name ∈ segments) ∧
      Enumerates "#name" names req.names ∧
      Enumerates ":val" (req.values.map Prod.snd) req.attributeValues ∧
      reader.lex (req.keyCondition.getD "").toList = some condition ∧
      reader.lex (req.filter.getD "").toList = some filter ∧
      reader.lex (req.projection.getD "").toList = some projection ∧
      (∀ w, w ∈ wordsWith '#' (condition ++ filter ++ projection) ↔
        w ∈ req.names.map Prod.fst) ∧
      wordsWith ':' (condition ++ filter) =
        (List.range' 1 req.values.length).map (fun k => ":val" ++ toString k) ∧
      wordsWith ':' projection = [] ∧
      ∀ s ∈ condition ++ filter ++ projection, s ∈ fixedSigns ∨
        ∃ w, s = .word w ∧
          (w ∈ req.names.map Prod.fst ∨ w ∈ req.attributeValues.map Prod.fst) := by
  obtain ⟨pl, p, hplan, _, _, hcondition, hfilter, hprojection, hnames, hattributes, hvalues⟩ :=
    compile_ok h
  obtain ⟨choice, p₁, p₂, hcourse⟩ := plan_course hplan
  obtain ⟨hnodup, hsegments, _⟩ := hcourse.names
  obtain ⟨condition, hlex₁, hnames₁, hvalues₁, hsigns₁⟩ :=
    lex_of_shows (shows_conjunction hcourse.whole.1)
  obtain ⟨filter, hlex₂, hnames₂, hvalues₂, hsigns₂⟩ :=
    lex_of_shows (shows_conjunction hcourse.whole.2)
  obtain ⟨projection, hlex₃, hnames₃, hvalues₃, hsigns₃⟩ :=
    lex_of_shows (shows_projection pl.projection)
  have hnameMap : Enumerates "#name" p.scope req.names := hnames ▸ enumerates_nameMap p.scope
  have hvalueMap : Enumerates ":val" (req.values.map Prod.snd) req.attributeValues := by
    rw [hattributes, hvalues]
    exact enumerates_valueMap p.values
  have hstandIns : ∀ w, w ∈ wordsWith '#' (condition ++ filter ++ projection) ↔
      w ∈ req.names.map Prod.fst := by
    intro w
    rw [wordsWith_append, wordsWith_append, hnames₁, hnames₂, hnames₃, ← List.map_append,
      ← List.map_append, hnameMap.mem_keys_iff, List.mem_map]
    constructor
    · rintro ⟨k, hk, rfl⟩
      obtain ⟨hpos, hle⟩ := (hcourse.mem_fields k).1 hk
      exact ⟨k, hpos, hle, rfl⟩
    · rintro ⟨k, hpos, hle, rfl⟩
      exact ⟨k, (hcourse.mem_fields k).2 ⟨hpos, hle⟩, rfl⟩
  have hmarkers : wordsWith ':' (condition ++ filter) =
      (List.range' 1 req.values.length).map (fun k => ":val" ++ toString k) := by
    rw [wordsWith_append, hvalues₁, hvalues₂, ← List.map_append,
      hcourse.markers, hvalues]
    rfl
  have hnone : wordsWith ':' projection = [] := by
    rw [hvalues₃, markers_projection, List.map_nil]
  refine ⟨p.scope, condition, filter, projection, hnodup, hsegments, hnameMap, hvalueMap, ?_, ?_, ?_,
    hstandIns, hmarkers, hnone, fun s hs => ?_⟩
  · rw [hcondition, condition?, getD_expression?]
    exact hlex₁
  · rw [hfilter, condition?, getD_expression?]
    exact hlex₂
  · rw [hprojection, getD_expression?]
    exact hlex₃
  · have hmark : s ∈ fixedSigns ∨ ∃ w, s = .word w ∧ isMark w = true := by
      rcases List.mem_append.1 hs with hs | hs
      · exact (List.mem_append.1 hs).elim (hsigns₁ s) (hsigns₂ s)
      · exact hsigns₃ s hs
    rcases hmark with hfixed | ⟨w, rfl, hw⟩
    · exact .inl hfixed
    · refine .inr ⟨w, rfl, ?_⟩
      rw [isMark, Bool.or_eq_true, decide_eq_true_eq, decide_eq_true_eq] at hw
      rcases hw with hw | hw
      · exact .inl ((hstandIns w).1 (mem_wordsWith.2 ⟨hs, hw⟩))
      · have hmem := mem_wordsWith.2 ⟨hs, hw⟩
        rw [wordsWith_append, hnone, List.append_nil, hmarkers, List.mem_map] at hmem
        obtain ⟨k, hk, rfl⟩ := hmem
        obtain ⟨hpos, hlt⟩ := List.mem_range'_1.1 hk
        exact .inr (hvalueMap.mem_keys_iff.2 ⟨k, hpos, by rw [List.length_map]; omega, rfl⟩)

/-- A request with a name that is both an attribute and a part of another one. -/
def namedShops : ResourceQuery.Request where
  collection := ⟨"shops", none,
    [⟨"address", some "addr", .string, true⟩, ⟨"name", none, .string, false⟩], [], []⟩
  filters := [.call "emp" [.word "address.name"], .call "ne" [.word "name", .word "addr"]]
  page := .none
  after := none
  sorts := []
  groups := []
  includes := [.word "address.name"]
  computed := []
  distinct := false
  rowCount := false

theorem compile_closed_of_named_shops : ∃ req names condition filter projection,
    compile .standard namedShops = .ok req ∧
    req.names = [("#name1", "addr"), ("#name2", "name")] ∧
    req.attributeValues = [(":val1", .text ""), (":val2", .text "addr")] ∧
    req.filter = some ("(attribute_not_exists(#name1.#name2) OR #name1.#name2 = :val1) AND " ++
      "#name2 <> :val2") ∧
    req.projection = some "#name1.#name2" ∧ names.Nodup ∧ Enumerates "#name" names req.names ∧
    reader.lex (req.keyCondition.getD "").toList = some condition ∧
    reader.lex (req.filter.getD "").toList = some filter ∧
    reader.lex (req.projection.getD "").toList = some projection ∧
    (∀ w, w ∈ wordsWith '#' (condition ++ filter ++ projection) ↔ w ∈ req.names.map Prod.fst) ∧
    wordsWith ':' (condition ++ filter) =
      (List.range' 1 req.values.length).map (fun k => ":val" ++ toString k) := by
  have hreq : (compile .standard namedShops).toOption.map (fun req =>
      (req.names, req.attributeValues, req.filter, req.projection)) =
      some ([("#name1", "addr"), ("#name2", "name")],
        [(":val1", .text ""), (":val2", .text "addr")],
        some ("(attribute_not_exists(#name1.#name2) OR #name1.#name2 = :val1) AND " ++
          "#name2 <> :val2"), some "#name1.#name2") := by
    decide +kernel
  obtain ⟨req, hreq, hparts⟩ := Option.map_eq_some_iff.1 hreq
  simp only [Prod.mk.injEq] at hparts
  obtain ⟨hnames, hvalues, hfilter, hprojection⟩ := hparts
  have hcompile := eq_ok_of_toOption hreq
  obtain ⟨names, condition, filter, projection, hnodup, _, henumerates, _, hlex₁, hlex₂, hlex₃,
    hstandIns, hmarkers, _⟩ := compile_closed .standard namedShops req hcompile
  exact ⟨req, names, condition, filter, projection, hcompile, hnames, hvalues, hfilter, hprojection,
    hnodup, henumerates, hlex₁, hlex₂, hlex₃, hstandIns, hmarkers⟩

end KeyValue
end ResourceQuery

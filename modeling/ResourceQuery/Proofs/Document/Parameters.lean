import ResourceQuery.Proofs.Document.Markers
import ResourceQuery.Proofs.FilterText.Vocabulary

set_option autoImplicit false

/-!
# Document queries: parameters in the text

The words with an `@` in a query are its markers, one for each parameter and in
the order of the parameters.  Labels are written as they are, so this is for
labels that have neither an `@` nor a quote, and for properties without
backslashes.

The text of a query is read sign by sign with the lexicon of the target: the
table of its fixed texts is checked once, by computation, and all other pieces
are words, quoted segments, numerals or markers.  What a plan shows is put
together from its pieces.
-/

namespace ResourceQuery.Document

open FilterText Lexicon

/-! ## Keywords and phrases -/

/-- The words that are written whatever is asked for. -/
def keywords : List String :=
  ["SELECT", "DISTINCT", "VALUE", "*", "c", "1", "AS", "FROM", "WHERE", "GROUP", "BY", "ORDER",
   "ASC", "DESC", "OFFSET", "LIMIT", "COUNT", "SUM", "MIN", "MAX", "AVG", "AND", "OR", "NOT", "IN",
   "=", "!=", "<", "<=", ">", ">=", "IS_DEFINED", "IS_NULL", "STARTSWITH", "ENDSWITH"]

/-- The signs of the fixed texts. -/
def fixedSigns : List Sign :=
  keywords.map .word ++ reader.alone.map .mark ++ [.quoted ""]

/-- The fixed texts that no word runs on behind. -/
@[simp] def phrases : List String :=
  [" = ", " != ", " < ", " <= ", " > ", " >= ", " ? ", " : ", " AS ", "NOT IS_DEFINED(",
   ") OR IS_NULL(", "IS_DEFINED(", ") AND NOT IS_NULL(", " = \"\"", " != \"\"", "ENDSWITH(",
   "STARTSWITH(", "SELECT ", "SELECT DISTINCT ", " WHERE ", " GROUP BY ", " ORDER BY ", " OFFSET ",
   " LIMIT "]

/-- The fixed texts with a word at their end. -/
def endings : List String :=
  ["*", " FROM c", "SELECT VALUE COUNT(1) FROM c", " ASC", " DESC", "COUNT", "SUM", "MIN", "MAX",
   "AVG"]

/-- Each of these texts is read as fixed signs, with nothing left open behind it. -/
theorem phrases_close :
    (connectives ++ phrases).all (reader.closesIn fixedSigns) = true := by
  decide +kernel

theorem endings_end : endings.all (reader.endsIn fixedSigns) = true := by
  decide +kernel

/-! ## The lexicon -/

/-- The word of a sign, if it has an `@` in it. -/
def atWord : Sign → List String
  | .word w => if w.toList.contains '@' then [w] else []
  | _ => []

/-- What document queries are made of, and the markers in them. -/
def lexicon : Lexicon String where
  reader := reader
  spelling := spelling
  fixed := fixedSigns
  extra _ := True
  content s := atWord (s.spelled spelling.marker)
  payload p := (Piece.markers [p]).map spelling.marker
  fixed_isFixed := by decide
  fixed_content := by decide
  fixed_payload _ := rfl

theorem knows : lexicon.Knows phrases endings := ⟨fluent_reader, phrases_close, endings_end⟩

theorem admits (s : Sign) : lexicon.Admits s := .inr trivial

theorem atWord_of_not_mem {w : String} (h : '@' ∉ w.toList) : atWord (.word w) = [] := by
  rw [atWord, if_neg fun hmem => h (List.contains_iff_mem.1 hmem)]

theorem isFixed_of_not_mem {w : String} (h : '@' ∉ w.toList) :
    (Sign.word w).isFixed reader = true := by
  rw [Sign.isFixed, Reader.isMarker]
  cases hhead : w.toList.head? with
  | none => rfl
  | some first =>
    have hne : first ≠ '@' := by
      rintro rfl
      exact h (List.mem_of_mem_head? hhead)
    simp [reader, hne]

theorem shows_marker (k : Nat) : lexicon.Shows [.marker k] := by
  refine ⟨_, signs_marker k, fun s _ => admits s, ?_⟩
  have hmem : '@' ∈ (spelling.marker k).toList := by
    have htext : (spelling.marker k).toList = '@' :: ("param".toList ++ (toString k).toList) :=
      String.toList_append
    rw [htext]
    exact List.mem_cons_self
  have hcontent : lexicon.content (.marker k) = [spelling.marker k] :=
    if_pos (List.contains_iff_mem.2 hmem)
  rw [List.flatMap_singleton, List.flatMap_singleton, hcontent]
  rfl

theorem content_property (c : Column) : (property c).flatMap lexicon.content = [] := by
  rw [property, List.flatMap_cons, List.flatMap_assoc]
  exact List.flatMap_eq_nil_iff.2 fun _ _ => rfl

theorem shows_column {c : Column} (h : Plain c) : lexicon.Shows (columnPieces c) := by
  refine ⟨_, signs_column h, fun s _ => admits s, ?_⟩
  rw [content_property, columnPieces, List.flatMap_cons, List.flatMap_assoc]
  exact (List.flatMap_eq_nil_iff.2 fun _ _ => rfl).symm

/-- A piece of letters without an `@`. -/
theorem shows_plainWord {piece : Piece} (hne : (piece.text spelling).toList ≠ [])
    (hletters : ∀ c ∈ (piece.text spelling).toList, reader.isLetter c = true)
    (hat : '@' ∉ (piece.text spelling).toList) (hpayload : lexicon.payload piece = []) :
    lexicon.Shows [piece] :=
  .word hne hletters (isFixed_of_not_mem hat) (admits _)
    ((atWord_of_not_mem hat).trans hpayload.symm)

/-! ## Numbers and labels -/

theorem isLetter_of_isNumeralChar {c : Char} (h : Number.isNumeralChar c = true) :
    reader.isLetter c = true ∧ c ≠ '@' := by
  have hnone : [' ', '"', '(', ')', ',', '[', ']', '?', ':', '@'].any Number.isNumeralChar = false := by
    decide
  have hmem : c ∉ [' ', '"', '(', ')', ',', '[', ']', '?', ':', '@'] :=
    fun hmem => List.any_eq_false.1 hnone c hmem h
  simp only [List.mem_cons, List.not_mem_nil, or_false, not_or] at hmem
  refine ⟨?_, hmem.2.2.2.2.2.2.2.2.2⟩
  simp [Reader.isLetter, Reader.isDelimiter, reader, hmem]

theorem shows_numeral {text : String} (hne : text.toList ≠ [])
    (h : ∀ c ∈ text.toList, Number.isNumeralChar c = true) : lexicon.Shows [.numeral text] :=
  shows_plainWord hne (fun c hc => (isLetter_of_isNumeralChar (h c hc)).1)
    (fun hmem => (isLetter_of_isNumeralChar (h '@' hmem)).2 rfl) rfl

theorem shows_number {text : String} (h : Number.isNumber text = true) :
    lexicon.Shows [.numeral text] := by
  refine shows_numeral ?_ (Number.isNumeralChar_of_isNumber h)
  intro hnil
  have hempty : text = "" := String.toList_inj.1 hnil
  rw [hempty] at h
  exact absurd h (by decide)

/-- The numbers of rows are written in digits. -/
theorem shows_rows (n : Nat) : lexicon.Shows [.numeral (toString n)] := by
  refine shows_numeral ?_ fun c hc =>
    Number.isNumeralChar_of_isDigit (Number.isDigit_of_mem_toString hc)
  simp [Nat.repr]

/-- The label has neither an `@` nor a quote. -/
def cleanLabel (label : String) : Bool := label.toList.all fun c => c ≠ '@' && c ≠ '"'

/-- A label without an `@` is read as words and marks that no marker is among. -/
theorem shows_label {label : String} (h : cleanLabel label = true) :
    lexicon.Shows [.label label] := by
  have hclean : ∀ c ∈ label.toList, reader.closing c = none ∧ c ≠ '@' := by
    intro c hc
    have hboth := List.all_eq_true.1 h c hc
    simp only [Bool.and_eq_true, decide_eq_true_eq] at hboth
    exact ⟨if_neg hboth.2, hboth.1⟩
  obtain ⟨ss, hspells, hwithin⟩ := Reader.exists_spells_plain hclean
  have hplain : ∀ s ∈ ss, s.isFixed reader = true ∧ lexicon.content s = [] := by
    intro s hs
    rcases hwithin s hs with ⟨w, rfl, hw⟩ | ⟨c, rfl⟩
    · have hat : '@' ∉ (String.ofList w).toList := by
        rw [String.toList_ofList]
        exact fun hmem => hw '@' hmem rfl
      exact ⟨isFixed_of_not_mem hat, atWord_of_not_mem hat⟩
    · exact ⟨rfl, rfl⟩
  refine ⟨ss, ⟨?_, fun s hs => .inl (hplain s hs).1⟩, fun s _ => admits s, ?_⟩
  · rw [map_spelled_of_fixed fun s hs => (hplain s hs).1, chars_cons]
    exact (List.append_nil _).symm ▸ hspells
  · rw [List.flatMap_eq_nil_iff.2 fun s hs => (hplain s hs).2]
    rfl

/-! ## Conditions -/

theorem closes_sign (op : Comparison) : lexicon.closes s!" {op.sign phrasing.notEqual} " = true := by
  cases op <;> exact knows.phrase (by decide)

theorem shows_absent {c : Column} (h : Plain c) : lexicon.Shows (absent (columnPieces c)) := by
  have hdefined : lexicon.Shows (.fixed "NOT IS_DEFINED(" :: columnPieces c) :=
    .fixed (knows.phrase (by simp)) (shows_column h)
  exact (hdefined.between (parts_mark rfl rfl) (knows.phrase (by simp)) (shows_column h)).before
    (parts_mark rfl rfl) (knows.phrase (by simp))

theorem shows_present {c : Column} (h : Plain c) : lexicon.Shows (present (columnPieces c)) := by
  have hdefined : lexicon.Shows (.fixed "IS_DEFINED(" :: columnPieces c) :=
    .fixed (knows.phrase (by simp)) (shows_column h)
  exact (hdefined.between (parts_mark rfl rfl) (knows.phrase (by simp)) (shows_column h)).before
    (parts_mark rfl rfl) (knows.phrase (by simp))

theorem shows_blankness {c : Column} (h : Plain c) (isBlank : Bool) :
    lexicon.Shows (phrasing.blankness isBlank (columnPieces c) none) := by
  refine knows.joins.enclosed ?_
  cases isBlank with
  | true =>
    have hempty : lexicon.Shows (columnPieces c ++ [.fixed " = \"\""]) :=
      (shows_column h).before (parts_blank rfl) (knows.phrase (by simp))
    have hwhole : lexicon.Shows (absent (columnPieces c) ++
        .fixed " OR " :: (columnPieces c ++ [.fixed " = \"\""])) :=
      (shows_absent h).between (parts_blank rfl) (knows.phrase (by simp)) hempty
    simpa using hwhole
  | false =>
    have hempty : lexicon.Shows (columnPieces c ++ [.fixed " != \"\""]) :=
      (shows_column h).before (parts_blank rfl) (knows.phrase (by simp))
    have hwhole : lexicon.Shows (present (columnPieces c) ++
        .fixed " AND " :: (columnPieces c ++ [.fixed " != \"\""])) :=
      (shows_present h).between (parts_blank rfl) (knows.phrase (by simp)) hempty
    simpa using hwhole

theorem shows_text {c : Column} (h : Plain c) (test : TextTest) (negated : Bool) (k : Nat) :
    lexicon.Shows (phrasing.text test negated (columnPieces c) k) := by
  have hopening : lexicon.closes (functions.opening test) = true := by
    cases test <;> exact knows.phrase (by decide)
  exact knows.joins.function functions hopening (shows_column h) (shows_marker k) negated

/-- The lexicon has what predicates are written with. -/
theorem covers : lexicon.Covers phrasing Plain True Unmarked where
  toJoins := knows.joins
  deciding _ := ⟨knows.phrase (by simp), knows.phrase (by simp)⟩
  sign := closes_sign
  marker := shows_marker
  column := shows_column
  nullity := by
    intro c hc isNull
    refine knows.joins.enclosed ?_
    cases isNull with
    | true => exact shows_absent hc
    | false => exact shows_present hc
  blankness := by
    rintro c hc marker rfl isBlank
    exact shows_blankness hc isBlank
  text := shows_text

/-- A computed column shows the markers that its predicates and values have. -/
theorem shows_expression {e : Expression Column}
    (he : e.Whole Plain True Unmarked fun text => Number.isNumber text = true) :
    lexicon.Shows (e.pieces phrasing .conditional) := by
  refine covers.shows_expression .conditional (knows.ending (by decide)) (fun f => ?_)
    (fun hc ht hf => ?_) shows_number he
  · cases f <;> exact knows.ending (by decide)
  · have hwhole := knows.joins.enclosed
      (hc.between (parts_blank rfl) (knows.phrase (by simp : " ? " ∈ _))
        (ht.between (parts_blank rfl) (knows.phrase (by simp : " : " ∈ _)) hf))
    simpa [ChoicePhrase.pieces, Predicate.enclosed] using hwhole

/-! ## Plans -/

/-- The parts of a plan are such as the lexicon has words for. -/
structure Plan.Whole (p : Plan) : Prop where
  items : ∀ item ∈ p.items,
    item.1.Whole Plain True Unmarked (fun text => Number.isNumber text = true) ∧
      ∀ label ∈ item.2, cleanLabel label = true
  filters : ∀ q ∈ p.filters, q.Whole Plain True Unmarked
  groups : ∀ c ∈ p.groups, Plain c
  orders : ∀ o ∈ p.orders, Plain o.1

theorem shows_item {item : Expression Column × Option String}
    (h : item.1.Whole Plain True Unmarked fun text => Number.isNumber text = true)
    (hlabel : ∀ label ∈ item.2, cleanLabel label = true) : lexicon.Shows (itemPieces item) := by
  obtain ⟨e, label⟩ := item
  unfold itemPieces
  cases label with
  | none => exact (shows_expression h).beside .nil .nil
  | some label =>
    exact (shows_expression h).between (parts_blank rfl) (knows.phrase (by simp))
      (shows_label (hlabel label rfl))

/-- The columns of a query, up to its filter. -/
theorem shows_front {p : Plan} (h : p.Whole) (distinct : Bool) :
    lexicon.Shows (p.front distinct) := by
  have hselect : lexicon.closes (if distinct then "SELECT DISTINCT " else "SELECT ") = true := by
    cases distinct <;> exact knows.phrase (by simp)
  have hitems : lexicon.Shows
      (if p.items.isEmpty then [.fixed "*"] else Piece.join ", " (p.items.map itemPieces)) := by
    split
    · exact .ending (knows.ending (by decide))
    · refine .join (parts_mark rfl rfl) (knows.phrase (by simp)) fun part hpart => ?_
      obtain ⟨item, hitem, rfl⟩ := List.mem_map.1 hpart
      exact shows_item (h.items item hitem).1 (h.items item hitem).2
  exact (Shows.fixed hselect hitems).beside (.fixed (parts_blank rfl) _)
    (.ending (knows.ending (by decide)))

theorem shows_wherePieces {p : Plan} (h : p.Whole) : lexicon.Shows p.wherePieces :=
  .clause (knows.phrase (by simp)) (parts_blank rfl) (knows.phrase (by simp))
    (covers.shows_piecesAll h.filters)

/-- The groups, the order and the window of a query. -/
theorem shows_back {p : Plan} (h : p.Whole) (window : Window) : lexicon.Shows (p.back window) := by
  have hgroups : lexicon.Shows (Piece.clause " GROUP BY " ", " (p.groups.map columnPieces)) := by
    refine .clause (knows.phrase (by simp)) (parts_mark rfl rfl) (knows.phrase (by simp)) ?_
    intro part hpart
    obtain ⟨c, hc, rfl⟩ := List.mem_map.1 hpart
    exact shows_column (h.groups c hc)
  have horders : lexicon.Shows (Piece.clause " ORDER BY " ", " (p.orders.map fun o =>
      columnPieces o.1 ++ [.fixed (if o.2 then " ASC" else " DESC")])) := by
    refine .clause (knows.phrase (by simp)) (parts_mark rfl rfl) (knows.phrase (by simp)) ?_
    intro part hpart
    obtain ⟨o, ho, rfl⟩ := List.mem_map.1 hpart
    have hending : lexicon.Shows [.fixed (if o.2 then " ASC" else " DESC")] := by
      cases o.2 <;> exact .ending (knows.ending (by decide))
    have hparts : Parts reader (if o.2 then " ASC" else " DESC") := by
      cases o.2 <;> exact parts_blank rfl
    exact (shows_column (h.orders o ho)).beside (.fixed hparts _) hending
  have hpage : lexicon.Shows [.fixed " OFFSET ", .numeral (toString window.offset.toNat),
      .fixed " LIMIT ", .numeral (toString window.limit.toNat)] :=
    .fixed (knows.phrase (by simp)) ((shows_rows window.offset.toNat).between (parts_blank rfl)
      (knows.phrase (by simp)) (shows_rows window.limit.toNat))
  exact (hgroups.beside (.clause (parts_blank rfl) _ _) horders).beside (.fixed (parts_blank rfl) _)
    hpage

/-- The whole text of a plan shows the markers of the plan, in their order. -/
theorem shows_pieces {p : Plan} (h : p.Whole) (distinct : Bool) (window : Window) :
    lexicon.Shows (p.pieces distinct window) := by
  have hback : Begins reader spelling (p.back window) :=
    ((Begins.clause (parts_blank rfl) _ _).append (.clause (parts_blank rfl) _ _)).append
      (.fixed (parts_blank rfl) _)
  rw [pieces_eq_front_back]
  exact (shows_front h distinct).beside ((Begins.clause (parts_blank rfl) _ _).append hback)
    ((shows_wherePieces h).beside hback (shows_back h window))

theorem shows_countPieces {p : Plan} (h : p.Whole) : lexicon.Shows p.countPieces :=
  (Shows.ending (knows.ending (by decide))).beside (.clause (parts_blank rfl) _ _)
    (shows_wherePieces h)

/-- The markers of pieces, as they are written. -/
theorem payload_eq_markers (ps : List Piece) :
    ps.flatMap lexicon.payload = (Piece.markers ps).map spelling.marker := by
  induction ps with
  | nil => rfl
  | cons p ps ih =>
    rw [List.flatMap_cons, ih]
    cases p <;> rfl

/-! ## Requests -/

/-- The columns that an expression and its parts name are without backslashes. -/
def plainExpression (root : Collection) (t : Term) : Bool :=
  t.subterms.all fun u => plainPath root u.token && u.column.toOption.all (plainPath root)

/-- The columns that a request names are without backslashes, and its labels
have neither an `@` nor a quote. -/
def isClean (r : Request) : Bool :=
  r.plainColumns.all (fun t => t.path.toOption.all (plainPath r.collection)) &&
    r.computed.all (fun c => plainExpression r.collection c.expression &&
      (c.isAnonymous || cleanLabel c.label.token)) &&
    r.filters.all (plainTerm r.collection) &&
    r.groups.all (fun t => plainPath r.collection t.token) &&
    r.sorts.all fun sort => plainPath r.collection sort.column

theorem meets_of_plainExpression {root : Collection} {t : Term}
    (h : plainExpression root t = true) : (dialog root).Meets Plain t := by
  intro u hu path hpath p p' c property hresolve
  have hboth := Bool.and_eq_true_iff.1 (List.all_eq_true.1 h u hu)
  refine plain_of_plainPath ?_ (resolve_ok hresolve).1
  rcases hpath with hcolumn | rfl
  · have hall := hboth.2
    rw [hcolumn] at hall
    exact hall
  · exact hboth.1

theorem plain_of_columns {root : Collection} {ts : List Term}
    (hts : ts.all (fun t => t.path.toOption.all (plainPath root)) = true) {p p' : Progress Unit}
    {cs : List (String × Column × Property)} (h : (dialog root).columns ts p = .ok (cs, p')) :
    ∀ c ∈ cs, Plain c.2.1 := by
  rw [Dialog.columns_eq_mapM, Build.mapM_ok_iff] at h
  refine Dialog.forall_of_each h fun t ht p p' c hc => ?_
  obtain ⟨path, hpath, hc⟩ := Build.lookup_bind_ok_iff.1 hc
  obtain ⟨⟨column, property⟩, hresolve, rfl⟩ := Build.bind_pure_ok_iff.1 hc
  have hplain := List.all_eq_true.1 hts t ht
  rw [hpath] at hplain
  exact plain_of_plainPath hplain (resolve_ok hresolve).1

theorem plain_of_groups {root : Collection} {ts : List Term}
    (hts : ts.all (fun t => plainPath root t.token) = true) {p p' : Progress Unit}
    {cs : List Column} (h : (dialog root).groups ts p = .ok (cs, p')) : ∀ c ∈ cs, Plain c := by
  rw [Dialog.groups_eq_mapM, Build.mapM_ok_iff] at h
  refine Dialog.forall_of_each h fun t ht p p' c hc => ?_
  obtain ⟨⟨column, property⟩, hresolve, rfl⟩ := Build.bind_pure_ok_iff.1 hc
  exact plain_of_plainPath (List.all_eq_true.1 hts t ht) (resolve_ok hresolve).1

theorem plain_of_orders {root : Collection} (r : Request) {sorts : List SortKey}
    (hsorts : sorts.all (fun sort => plainPath root sort.column) = true) :
    ∀ {p p' : Progress Unit} {os : List (Column × Bool)},
      orders (dialog root) r sorts p = .ok (os, p') → ∀ o ∈ os, Plain o.1 := by
  induction sorts with
  | nil =>
    intro p p' os h o ho
    obtain ⟨rfl, _⟩ := Build.pure_ok_iff.1 h
    cases ho
  | cons sort sorts ih =>
    intro p p' os h
    rw [List.all_cons, Bool.and_eq_true] at hsorts
    rw [orders] at h
    split at h
    · obtain ⟨_, _, hthrow, _⟩ := Build.bind_ok_iff.1 h
      exact absurd hthrow Build.throw_ne_ok
    · obtain ⟨⟨column, property⟩, p₁, hresolve, h⟩ := Build.bind_ok_iff.1 h
      obtain ⟨rest, hrest, rfl⟩ := Build.bind_pure_ok_iff.1 h
      intro o ho
      rcases List.mem_cons.1 ho with rfl | ho
      · exact plain_of_plainPath hsorts.1 (resolve_ok hresolve).1
      · exact ih hsorts.2 hrest o ho

theorem whole_star {inside : Bool} {t : Term} {e : Expression Column}
    (h : star inside t = some e) :
    e.Whole Plain True Unmarked fun text => Number.isNumber text = true := by
  rw [(Expression.ofStar_eq_some h).1]
  exact .numeral (by decide)

/-- The plan of a clean request is such as the lexicon has words for. -/
theorem plan_whole {r : Request} (hclean : isClean r = true) {p : Plan} {f : Progress Unit}
    (h : plan (dialog r.collection) r ⟨[], ()⟩ = .ok (p, f)) : p.Whole := by
  simp only [isClean, Bool.and_eq_true] at hclean
  obtain ⟨⟨⟨⟨hplainColumns, hcomputedTerms⟩, hfilterTerms⟩, hgroupTerms⟩, hsorts⟩ := hclean
  have hexpressions : ∀ c ∈ r.computed, plainExpression r.collection c.expression = true ∧
      (c.isAnonymous = true ∨ cleanLabel c.label.token = true) := by
    intro c hc
    have hboth := Bool.and_eq_true_iff.1 (List.all_eq_true.1 hcomputedTerms c hc)
    exact ⟨hboth.1, Bool.or_eq_true_iff.1 hboth.2⟩
  obtain ⟨plain, es, p₁, p₂, hcourse⟩ := plan_course h
  have hwhole := Dialog.whole_computed (dialog_whole r.collection) whole_star
    (fun c hc => meets_of_plainExpression (hexpressions c hc).1)
    (fun c _ u _ hnumeral => (Bool.and_eq_true_iff.1 hnumeral).2) hcourse.computed
  refine ⟨fun item hitem => ?_, ?_, plain_of_groups hgroupTerms hcourse.grouped,
    plain_of_orders r hsorts hcourse.ordered⟩
  · rw [hcourse.items] at hitem
    rcases List.mem_append.1 hitem with hitem | hitem
    · obtain ⟨column, hcolumn, rfl⟩ := List.mem_map.1 hitem
      exact ⟨.column (plain_of_columns hplainColumns hcourse.selected column hcolumn),
        fun label hlabel => by cases hlabel⟩
    · obtain ⟨e, he, rfl⟩ := List.mem_map.1 hitem
      obtain ⟨hmem, hexpression⟩ := hwhole e he
      refine ⟨hexpression, fun label hlabel => ?_⟩
      rcases (hexpressions e.1 hmem).2 with hanonymous | hlabelClean
      · rw [if_pos hanonymous] at hlabel
        cases hlabel
      · dsimp only at hlabel
        split at hlabel
        · cases hlabel
        · obtain rfl := Option.some.inj hlabel
          exact hlabelClean
  · exact Dialog.whole_predicates (dialog_whole r.collection)
      (fun t ht => finds_of_plainTerm (List.all_eq_true.1 hfilterTerms t ht)) hcourse.filtered

/-- The markers of a text are those of its pieces. -/
theorem atWords_of_shows {ps : List Piece} (h : lexicon.Shows ps) : ∃ signs,
    reader.lex (Piece.textAll spelling ps).toList = some signs ∧
      signs.flatMap atWord = (Piece.markers ps).map spelling.marker := by
  obtain ⟨ss, hlex, _, _, hcontent⟩ := h.lex_eq
  refine ⟨_, hlex, ?_⟩
  rw [List.flatMap_map, ← payload_eq_markers, ← hcontent]
  rfl

/-- The names of parameters, in their order. -/
theorem names_parameters (values : Bindings) :
    (parameters values).map Prod.fst = (List.range' 1 values.length).map spelling.marker := by
  have hsuccs : List.range' 1 values.length = (List.range' 0 values.length).map (· + 1) := by
    have hshift : (List.range' 0 values.length).map (1 + ·) = List.range' 1 values.length :=
      List.map_add_range' 0 values.length 1
    exact hshift.symm.trans (List.map_congr_left fun i _ => Nat.add_comm 1 i)
  rw [parameters, List.map_map, hsuccs, List.map_map, ← List.zipIdx_map_snd 0 values, List.map_map]
  rfl

theorem values_parameters (values : Bindings) :
    (parameters values).map Prod.snd = values.map Prod.snd := by
  have hvalues := congrArg (List.map Prod.snd) (List.zipIdx_map_fst 0 values)
  rw [List.map_map] at hvalues
  rw [parameters, List.map_map]
  exact hvalues

/-- Parameters are numbered in order, and they are the markers of the query.
Those of the query that counts rows are the ones of the filter, which come
last. -/
theorem compile_parameters_line_up (config : Config) (r : Request) (q : Query)
    (hclean : isClean r = true) (h : compile config r = .ok q) :
    q.parameters.map Prod.fst =
        (List.range' 1 q.values.length).map (fun k => "@param" ++ toString k) ∧
      q.parameters.map Prod.snd = q.values.map Prod.snd ∧
      (∃ signs, reader.lex q.query.toList = some signs ∧
        signs.flatMap atWord = q.parameters.map Prod.fst) ∧
      ∀ count, q.countQuery = some count → ∃ signs p f,
        reader.lex count.toList = some signs ∧
        plan (dialog r.collection) r ⟨[], ()⟩ = .ok (p, f) ∧
        signs.flatMap atWord =
          (q.parameters.map Prod.fst).drop (Piece.markers (p.front r.distinct)).length := by
  obtain ⟨p, f, hplan, hquery, hparameters, hvalues, hcount⟩ := compile_ok h
  obtain ⟨hnumbered, hfits, _⟩ := plan_ok hplan
  have hwhole := plan_whole hclean hplan
  have hnumbers : Piece.markers (p.front r.distinct) ++ Piece.markers p.wherePieces =
      List.range' 1 f.values.length := by
    rw [markers_front hfits, markers_wherePieces hfits, ← List.map_append]
    exact hnumbered.numbers_eq
  have hnames : q.parameters.map Prod.fst =
      (List.range' 1 f.values.length).map spelling.marker := by
    rw [hparameters, names_parameters]
  refine ⟨by rw [hnames, hvalues]; rfl, by rw [hparameters, values_parameters, hvalues], ?_, ?_⟩
  · obtain ⟨signs, hlex, hwords⟩ := atWords_of_shows (shows_pieces hwhole r.distinct q.window)
    refine ⟨signs, by rw [hquery]; exact hlex, ?_⟩
    rw [hwords, hnames, ← hnumbers, pieces_eq_front_back, Piece.markers_append,
      Piece.markers_append, markers_back, List.append_nil]
  · intro count hsome
    rw [hcount] at hsome
    split at hsome
    · obtain rfl := Option.some.inj hsome
      obtain ⟨signs, hlex, hwords⟩ := atWords_of_shows (shows_countPieces hwhole)
      refine ⟨signs, p, f, hlex, hplan, ?_⟩
      rw [hwords, hnames, ← hnumbers, List.map_append, List.drop_left' (List.length_map _)]
      rfl
    · cases hsome

/-- A request with markers in a computed column and in its filter. -/
def bigOrders : Request where
  collection := ⟨"orders", none,
    [⟨"freight", some "Freight", .integer, false⟩, ⟨"city", some "ship@\"to", .string, true⟩], [], []⟩
  filters := [.call "sw" [.word "city", .word "a"], .call "in" [.word "freight", .word "5", .word "6"]]
  page := .none
  after := none
  sorts := []
  groups := []
  includes := [.word "city"]
  computed := [⟨.call "if" [.call "gt" [.word "freight", .word "3"], .word "1", .word "2"],
    .word "big one"⟩]
  distinct := false
  rowCount := true

theorem compile_parameters_of_big_orders : ∃ q, compile .standard bigOrders = .ok q ∧
    isClean bigOrders = true ∧
    q.query = "SELECT c[\"ship@\\\"to\"], (c[\"Freight\"] > @param1 ? 1 : 2) AS big one FROM c " ++
      "WHERE STARTSWITH(c[\"ship@\\\"to\"], @param2) AND c[\"Freight\"] IN (@param3, @param4) " ++
      "OFFSET 0 LIMIT 100" ∧
    ∃ signs, reader.lex q.query.toList = some signs ∧
      signs.flatMap atWord = q.parameters.map Prod.fst := by
  have hquery : (compile .standard bigOrders).toOption.map Query.query = some
      ("SELECT c[\"ship@\\\"to\"], (c[\"Freight\"] > @param1 ? 1 : 2) AS big one FROM c " ++
      "WHERE STARTSWITH(c[\"ship@\\\"to\"], @param2) AND c[\"Freight\"] IN (@param3, @param4) " ++
      "OFFSET 0 LIMIT 100") := by
    decide +kernel
  obtain ⟨q, hcompile, htext⟩ := Option.map_eq_some_iff.1 hquery
  have hclean : isClean bigOrders = true := by decide +kernel
  exact ⟨q, eq_ok_of_toOption hcompile, hclean, htext,
    (compile_parameters_line_up .standard bigOrders q hclean (eq_ok_of_toOption hcompile)).2.2.1⟩

/-- A label that looks like a marker. -/
def markedLabel : Request where
  collection := ⟨"orders", none, [⟨"freight", some "Freight", .integer, false⟩], [], []⟩
  filters := [.call "eq" [.word "freight", .word "5"]]
  page := .none
  after := none
  sorts := []
  groups := []
  includes := []
  computed := [⟨.call "count" [.word "*"], .leaf "@param1" (some .single)⟩]
  distinct := false
  rowCount := false

/-- A label is written as it is, so one that looks like a marker is read as a marker. -/
theorem compile_parameters_of_marked_label : ∃ q signs, compile .standard markedLabel = .ok q ∧
    q.query = "SELECT COUNT(1) AS @param1 FROM c WHERE c[\"Freight\"] = @param1 " ++
      "OFFSET 0 LIMIT 100" ∧
    q.parameters.map Prod.fst = ["@param1"] ∧ reader.lex q.query.toList = some signs ∧
    signs.flatMap atWord = ["@param1", "@param1"] := by
  have hquery : (compile .standard markedLabel).toOption.map
      (fun q => (q.query, q.parameters.map Prod.fst)) = some
        ("SELECT COUNT(1) AS @param1 FROM c WHERE c[\"Freight\"] = @param1 " ++
          "OFFSET 0 LIMIT 100", ["@param1"]) := by
    decide +kernel
  have hwords : (reader.lex ("SELECT COUNT(1) AS @param1 FROM c WHERE c[\"Freight\"] = @param1 " ++
      "OFFSET 0 LIMIT 100").toList).map (fun signs => signs.flatMap atWord) =
        some ["@param1", "@param1"] := by
    decide +kernel
  obtain ⟨q, hcompile, hparts⟩ := Option.map_eq_some_iff.1 hquery
  obtain ⟨signs, hlex, hwords⟩ := Option.map_eq_some_iff.1 hwords
  simp only [Prod.mk.injEq] at hparts
  refine ⟨q, signs, eq_ok_of_toOption hcompile, hparts.1, hparts.2, ?_, hwords⟩
  rw [hparts.1]
  exact hlex

end ResourceQuery.Document

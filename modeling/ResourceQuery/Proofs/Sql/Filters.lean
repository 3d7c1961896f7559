import ResourceQuery.Proofs.FilterText.Predicates
import ResourceQuery.Proofs.Sql.Markers

set_option autoImplicit false

/-!
# SQL: what filters say

How a relational statement is heard, and that its filter says what the terms
say.

All dialects are read by one reader that differs in the quotes of names alone.
What is special here is that a column is written with the number of its table:
joins are added while a filter is compiled, so what a column is known to be must
not change later (`Scope.Grows`).  `FilterKept` says of the finished statement
what `spoken` says of the steps of its compilation.
-/

namespace ResourceQuery.Sql

open FilterText

/-! ## The language -/

/-- The reader of a dialect. -/
def reader (d : Dialect) : Reader where
  closing c :=
    if c = d.openQuote then some d.closeQuote else if c = '\'' then some '\'' else none
  escapes := false
  alone := ['(', ')', ',', '\n']
  leads := ['$', '?', '@']

/-- The number of the table and the point. -/
def Column.lead (c : Column) : String := "t" ++ toString c.table ++ "."

/-- The signs of a column. -/
def Column.signs (c : Column) : List Sign := [.word c.lead, .quoted c.name]

/-- The signs that declare the escape character of a pattern. -/
def escapeSigns (d : Dialect) : List Sign :=
  if d.patternEscape.isSome then [.word "ESCAPE", .quoted "\\"] else []

/-- How a dialect is heard. -/
def voice (d : Dialect) (style : MarkerStyle) : Voice Column where
  reader := reader d
  spelling := d.spelling style
  phrasing := phrasing d
  column := Column.signs
  null ρ c := ρ (c.signs ++ [.word "IS", .word "NULL"])
  blank ρ c _ :=
    ρ (c.signs ++ [.word "IS", .word "NULL"]) || ρ (c.signs ++ [.word "=", .quoted ""])
  passes ρ _ c value := ρ (c.signs ++ (.word "LIKE" :: .value value :: escapeSigns d))

section Language

variable {d : Dialect} {style : MarkerStyle}

/-- The characters that are no letters. -/
theorem isLetter_of_not_mem {c : Char} (h : c ∉ [' ', '(', ')', ',', '\n', d.openQuote, '\'']) :
    (reader d).isLetter c = true := by
  simp only [List.mem_cons, List.not_mem_nil, or_false, not_or] at h
  simp [Reader.isLetter, Reader.isDelimiter, reader, h]

theorem fluent_reader (d : Dialect) : Fluent (reader d) :=
  fluent_of_isFluent (by cases d <;> decide)

/-- A marker is a word that the reader knows for one. -/
theorem marker_ok (d : Dialect) (style : MarkerStyle) (k : Nat) :
    (d.marker style k).toList ≠ [] ∧
      (∀ c ∈ (d.marker style k).toList, (reader d).isLetter c = true) ∧
      (reader d).isMarker (d.marker style k) = true := by
  have hplain : "?".toList ≠ [] ∧ (∀ c ∈ "?".toList, (reader d).isLetter c = true) ∧
      (reader d).isMarker "?" = true := by
    have hletters : "?".toList.all (reader d).isLetter = true := by cases d <;> decide
    exact ⟨by decide, List.all_eq_true.1 hletters, rfl⟩
  cases style with
  | positional => exact hplain
  | numbered =>
    cases d with
    | postgres => exact Reader.marker_numbered (fluent_reader _).digits "$" rfl rfl (by decide) k
    | sqlite => exact Reader.marker_numbered (fluent_reader _).digits "?" rfl rfl (by decide) k
    | sqlserver => exact Reader.marker_numbered (fluent_reader _).digits "@p" rfl rfl (by decide) k
    | mysql => exact hplain
    | h2 => exact hplain

/-! ## Columns -/

theorem Column.toList_lead (c : Column) :
    c.lead.toList = 't' :: ((toString c.table).toList ++ ['.']) := by
  rw [lead, String.toList_append, String.toList_append]
  rfl

theorem steady_column (c : Column) : Steady (reader d) c.signs := by
  have hfirst : c.lead.toList.head? = some 't' := by rw [c.toList_lead, List.head?_cons]
  exact (Steady.word hfirst (by decide) rfl).append (.quoted c.name)

/-- A column is read as the word for its table and the quoted name behind it. -/
theorem signs_column (c : Column) : Signs (reader d) (d.spelling style) c.pieces c.signs where
  spells := by
    have hchars : FilterText.chars (d.spelling style) c.pieces = c.lead.toList ++
        d.openQuote :: (c.name.toList.flatMap
          (fun x => if x = d.closeQuote then [x, x] else [x]) ++ [d.closeQuote]) := by
      have htable : ((Piece.table c.table).text (d.spelling style)).toList =
          't' :: (toString c.table).toList := by
        have htext : (Piece.table c.table).text (d.spelling style) = "t" ++ toString c.table := rfl
        rw [htext, String.toList_append]
        rfl
      have hname : ((Piece.name c.name).text (d.spelling style)).toList =
          d.quoteChars c.name.toList := String.toList_ofList
      have hpoint : ((Piece.fixed ".").text (d.spelling style)).toList = ['.'] := by
        rw [Piece.text]
        rfl
      have hnil : FilterText.chars (d.spelling style) [] = [] := rfl
      rw [Column.pieces, FilterText.chars_cons, FilterText.chars_cons, FilterText.chars_cons, htable, hname,
        hpoint, hnil, c.toList_lead, Dialect.quoteChars]
      simp
    have hletters : ∀ x ∈ c.lead.toList, (reader d).isLetter x = true := by
      intro x hx
      rw [Column.lead, String.toList_append] at hx
      rcases List.mem_append.1 hx with hx | hx
      · exact Reader.isLetter_numbered (fluent_reader d).digits (by cases d <;> decide) _ x hx
      · have hpoint : ".".toList.all (reader d).isLetter = true := by cases d <;> decide
        exact List.all_eq_true.1 hpoint x hx
    have hne : c.lead.toList ≠ [] := by
      rw [c.toList_lead]
      exact List.cons_ne_nil _ _
    have hspells := Reader.spells_doubled rfl hne hletters (by cases d <;> decide)
      (if_pos rfl : (reader d).closing d.openQuote = some d.closeQuote)
      (by cases d <;> decide) c.name.toList
    rw [String.ofList_toList, String.ofList_toList] at hspells
    rw [hchars]
    exact hspells
  plain s hs := .inl ((steady_column c).fixed s hs)

/-! ## Tests -/

/-- What is said of a column by flat signs. -/
theorem means_column (d : Dialect) (c : Column) {tail : List Sign}
    (h : tail.all Sign.isFlat = true) :
    Means .negation (c.signs ++ tail) fun values ρ =>
      ρ (c.signs ++ positives (tail.map (Sign.ground values))) ==
        affirms (tail.map (Sign.ground values)) :=
  (steady_column c : Steady (reader d) c.signs).means (List.cons_ne_nil _ _) (List.all_eq_true.1 h)

/-- The words of a test for null. -/
def nullWords (isNull : Bool) : List Sign :=
  if isNull then [.word "IS", .word "NULL"] else [.word "IS", .word "NOT", .word "NULL"]

theorem spells_nullWords (d : Dialect) (isNull : Bool) :
    (reader d).Spells (if isNull then " IS NULL" else " IS NOT NULL").toList (nullWords isNull) := by
  cases isNull with
  | true =>
    have hrun : (reader d).run .rest " IS NULL".toList =
        ([.word "IS"], .word "NULL".toList) := by cases d <;> decide
    exact Reader.spells_of_run_word hrun
  | false =>
    have hrun : (reader d).run .rest " IS NOT NULL".toList =
        ([.word "IS", .word "NOT"], .word "NULL".toList) := by cases d <;> decide
    exact Reader.spells_of_run_word hrun

/-- The column is compared with the empty string. -/
theorem means_empty (d : Dialect) (c : Column) :
    Means .negation (c.signs ++ [.word "=", .quoted ""])
      fun _ ρ => ρ (c.signs ++ [.word "=", .quoted ""]) == true :=
  means_column d c rfl

theorem means_notEmpty (d : Dialect) (c : Column) :
    Means .negation (c.signs ++ [.word "<>", .quoted ""])
      fun _ ρ => ρ (c.signs ++ [.word "=", .quoted ""]) == false :=
  means_column d c rfl

theorem means_null (d : Dialect) (c : Column) (isNull : Bool) :
    Means .negation (c.signs ++ nullWords isNull)
      fun _ ρ => ρ (c.signs ++ [.word "IS", .word "NULL"]) == isNull := by
  cases isNull with
  | true => exact means_column d c rfl
  | false => exact means_column d c rfl

theorem tells_nullity (d : Dialect) (style : MarkerStyle) (c : Column) (isNull : Bool) :
    (voice d style).Tells ((phrasing d).nullity isNull c.pieces) []
      fun _ ρ => (voice d style).null ρ c == isNull := by
  have hparts : Parts (reader d) (if isNull then " IS NULL" else " IS NOT NULL") := by
    cases isNull <;> exact parts_blank rfl
  refine ⟨_, (signs_column c).ending hparts (spells_nullWords d isNull) ?_, ?_, ?_⟩
  · cases isNull <;> rfl
  · cases isNull <;> rfl
  · exact means_null d c isNull

/-- An empty column is null or equal to the empty string, so the test is two
comparisons joined by a connective. -/
theorem tells_blankness (d : Dialect) (style : MarkerStyle) (c : Column) (isBlank : Bool) :
    (voice d style).Tells ((phrasing d).blankness isBlank c.pieces none) []
      fun _ ρ => (voice d style).blank ρ c none == isBlank := by
  have hopening := (fluent_reader d).opening
  cases isBlank with
  | true =>
    have hor : Fixed (reader d) " IS NULL OR " [.word "IS", .word "NULL", .word "OR"] := by
      cases d <;> decide
    have hempty : Fixed (reader d) " = '')" [.word "=", .quoted "", .mark ')'] := by
      cases d <;> decide
    have hmeans := ((means_null d c true).conjunct.either (means_empty d c).conjunct.disjunct).enclosed
    refine ⟨_, ((Signs.fixed hopening (signs_column c)).between (parts_blank rfl) hor
      (signs_column c)).before (parts_blank rfl) hempty, rfl, hmeans.congr fun values ρ => ?_⟩
    simp [voice]
  | false =>
    have hand : Fixed (reader d) " IS NOT NULL AND "
        [.word "IS", .word "NOT", .word "NULL", .word "AND"] := by
      cases d <;> decide
    have hempty : Fixed (reader d) " <> '')" [.word "<>", .quoted "", .mark ')'] := by
      cases d <;> decide
    have hmeans := ((means_null d c false).both (means_notEmpty d c).conjunct).disjunct.enclosed
    refine ⟨_, ((Signs.fixed hopening (signs_column c)).between (parts_blank rfl) hand
      (signs_column c)).before (parts_blank rfl) hempty, rfl, hmeans.congr fun values ρ => ?_⟩
    simp [voice]

/-- The words of a test against a pattern. -/
def likeWords (negated : Bool) : List Sign :=
  if negated then [.word "NOT", .word "LIKE"] else [.word "LIKE"]

/-- A marker and the declaration of the escape character behind it. -/
theorem signs_pattern (d : Dialect) (style : MarkerStyle) (k : Nat) :
    Signs (reader d) (d.spelling style) [.marker k, .fixed (escapeSuffix d)]
      (.marker k :: escapeSigns d) := by
  obtain ⟨hne, hletters, _⟩ := marker_ok d style k
  have hmarker : Signs (reader d) (d.spelling style) [.marker k] [.marker k] :=
    .marker hne hletters
  have hnone : Signs (reader d) (d.spelling style) [.marker k, .fixed ""] [.marker k] := by
    refine ⟨?_, hmarker.plain⟩
    have hchars : FilterText.chars (d.spelling style) [.marker k, .fixed ""] =
        FilterText.chars (d.spelling style) [.marker k] := by
      rw [FilterText.chars_cons, FilterText.chars_cons, FilterText.chars_cons]
      rfl
    rw [hchars]
    exact hmarker.spells
  have hescape : (reader d).run .rest " ESCAPE '\\'".toList =
      ([.word "ESCAPE"], .closed '\'' ['\\']) → Signs (reader d) (d.spelling style)
        ([.marker k] ++ [.fixed " ESCAPE '\\'"]) ([.marker k] ++ [.word "ESCAPE", .quoted "\\"]) :=
    fun hrun => hmarker.ending (parts_blank rfl)
      (Reader.spells_of_run_closed (by cases d <;> decide) hrun) rfl
  cases d with
  | postgres => exact hnone
  | mysql => exact hnone
  | h2 => exact hnone
  | sqlite => exact hescape (by decide)
  | sqlserver => exact hescape (by decide)

/-- Every text operator is a match with a pattern, which is bound as a value. -/
theorem tells_text (d : Dialect) (style : MarkerStyle) (test : TextTest) (negated : Bool)
    (c : Column) (k : Nat) :
    (voice d style).Tells ((phrasing d).text test negated c.pieces k) [k]
      fun values ρ => (voice d style).passes ρ test c (values.at k) != negated := by
  have hfixed : Fixed (reader d) (if negated then " NOT LIKE " else " LIKE ") (likeWords negated) := by
    cases negated <;> cases d <;> decide
  have hparts : Parts (reader d) (if negated then " NOT LIKE " else " LIKE ") := by
    cases negated <;> exact parts_blank rfl
  have hflat : (likeWords negated ++ .marker k :: escapeSigns d).all Sign.isFlat = true := by
    cases negated <;> cases d <;> rfl
  refine ⟨_, (signs_column c).between hparts hfixed (signs_pattern d style k), ?_,
    (means_column d c hflat).congr fun values ρ => ?_⟩
  · cases negated <;> cases d <;> rfl
  · have hpositives : positives ((likeWords negated ++ .marker k :: escapeSigns d).map
        (Sign.ground values)) = .word "LIKE" :: .value (values.at k) :: escapeSigns d := by
      cases negated <;> cases d <;> rfl
    have haffirms : affirms ((likeWords negated ++ .marker k :: escapeSigns d).map
        (Sign.ground values)) = !negated := by
      have hground : (likeWords negated ++ .marker k :: escapeSigns d).map (Sign.ground values) =
          likeWords negated ++ ([.value (values.at k)] ++ escapeSigns d) := by
        cases negated <;> cases d <;> rfl
      rw [hground, affirms_append, affirms_append, affirms_value]
      cases negated <;> cases d <;> rfl
    rw [hpositives, haffirms]
    cases negated <;> simp [voice]

/-- The phrases of a dialect tell what they are for. -/
theorem clear_voice (d : Dialect) (style : MarkerStyle) :
    (voice d style).Clear (fun _ => True) False (· = none) where
  fluent := fluent_reader d
  deciding := False.elim
  unequal := .inl rfl
  marker k := .marker (marker_ok d style k).1 (marker_ok d style k).2.1
  isMarker k := (marker_ok d style k).2.2
  column _ := signs_column _
  steady _ := steady_column _
  ne_nil _ := List.cons_ne_nil _ _
  nullity _ isNull := tells_nullity d style _ isNull
  blankness := by
    intro c _ marker hmarker isBlank
    subst hmarker
    exact tells_blankness d style c isBlank
  text _ test negated k := tells_text d style test negated _ k

end Language

/-! ## What the compiler settles -/

/-- Routes that are known stay known. -/
def Scope.Grows (s s' : Scope) : Prop :=
  ∀ route index, s.table? route = some index → s'.table? route = some index

/-- Routes are only added to those that are known. -/
theorem Scope.growth : Growth Scope.Grows where
  refl _ _ _ h := h
  trans h h' route index hknown := h' route index (h route index hknown)

theorem Scope.table?_cons (s : Scope) (route' : String) (index : Nat) (route : String) :
    { s with routes := (route', index) :: s.routes }.table? route =
      if route' = route then some index else s.table? route := by
  unfold table?
  by_cases h : route' = route
  · simp [h]
  · simp [h]

/-- Joining adds the route to those that are known. -/
theorem Scope.table?_joinStep (s : Scope) (step : Step) (source : Nat) (route : String) :
    (s.joinStep step source).2.table? route =
      if step.route = route then some (s.joinStep step source).1 else s.table? route := by
  unfold joinStep
  dsimp only
  rw [table?_cons]
  cases step.relationship.through <;> rfl

/-- A step that was taken is known to lead to the same table. -/
theorem Scope.reach_settles {s s' : Scope} {step : Step} {source index : Nat}
    (h : s.reach step source = .ok (index, s')) :
    s.Grows s' ∧ s'.table? step.route = some index := by
  unfold reach at h
  cases hknown : s.table? step.route with
  | some i =>
    rw [hknown] at h
    simp only [Except.ok.injEq, Prod.mk.injEq] at h
    obtain ⟨rfl, rfl⟩ := h
    exact ⟨fun _ _ h => h, hknown⟩
  | none =>
    rw [hknown] at h
    dsimp only at h
    split at h
    · cases h
    · have hindex : (s.joinStep step source).1 = index := congrArg Prod.fst (Except.ok.inj h)
      have hscope : (s.joinStep step source).2 = s' := congrArg Prod.snd (Except.ok.inj h)
      rw [← hscope, ← hindex]
      refine ⟨fun route i hroute => ?_, ?_⟩
      · rw [table?_joinStep, if_neg, hroute]
        rintro rfl
        rw [hknown] at hroute
        cases hroute
      · rw [table?_joinStep, if_pos rfl]

/-- The way along all steps is known from then on. -/
theorem Scope.reachAll_settles {steps : List Step} :
    ∀ {s s' : Scope} {source index : Nat}, s.reachAll source steps = .ok (index, s') →
      s.Grows s' ∧ ∀ f : Scope, s'.Grows f → f.reachAll source steps = .ok (index, f) := by
  induction steps with
  | nil =>
    intro s s' source index h
    obtain ⟨rfl, rfl⟩ := Prod.mk.inj (Except.ok.inj h)
    exact ⟨fun _ _ h => h, fun f _ => rfl⟩
  | cons step steps ih =>
    intro s s' source index h
    obtain ⟨⟨middle, s₁⟩, hstep, hrest⟩ := bind_eq_ok_iff.1 h
    obtain ⟨hgrows, hroute⟩ := reach_settles hstep
    obtain ⟨hgrows', hlater⟩ := ih hrest
    refine ⟨Scope.growth.trans hgrows hgrows', fun f hf => ?_⟩
    have hreach : f.reach step source = .ok (middle, f) := by
      rw [reach, hf _ _ (hgrows' _ _ hroute)]
    rw [reachAll, hreach]
    exact hlater f hf

/-- What filter terms say, from what conditions mean: a text operator is a match
with its pattern. -/
def sense (m : Meaning Column) : Sense Column where
  toMeaning := m
  tests op c text := m.passes .pattern c (.text (Pattern.like op text))
  empty c := m.blank c none

/-- The predicates of the compiler are true where their terms are, with the
bound values put in for the markers. -/
theorem dialog_truthful (catalog : Catalog) (root : Collection) (limit : Nat) (m : Meaning Column) :
    (dialog catalog root limit).Truthful Scope.Grows (sense m) where
  growth := Scope.growth
  resolve := by
    intro path p p' found h
    obtain ⟨c, property⟩ := found
    obtain ⟨resolved, scope, hfollow, hreach, hname, rfl, rfl⟩ := resolve_run catalog root limit h
    obtain ⟨hgrows, hlater⟩ := Scope.reachAll_settles hreach
    refine ⟨⟨List.prefix_rfl, hgrows⟩, fun f hf => ?_⟩
    have hfound : resolve catalog root limit path f = .ok ((c, resolved.property), f) := by
      unfold resolve
      refine Build.lookup_bind_ok_iff.2 ⟨resolved, hfollow, Build.bind_ok_iff.2 ⟨f, f, rfl, ?_⟩⟩
      refine Build.lookup_bind_ok_iff.2 ⟨(c.table, f.scope), hlater f.scope hf.scope, ?_⟩
      rw [← hname]
      rfl
    change (resolve catalog root limit path f).toOption.map Prod.fst = _
    rw [hfound]
    rfl
  test := by
    intro op c path text p p' q _ h
    obtain ⟨marker, rfl, hbind⟩ := test_ok h
    refine (settles_bind Scope.growth hbind).mono fun f hf => ?_
    rw [Predicate.truth, hf]
    cases op with
    | lacks => exact Bool.bne_true _
    | startsWith | endsWith | contains | like => exact Bool.bne_false _
  like := rfl
  unlike := by
    intro q values
    cases q with
    | text test negated column marker =>
      change (Predicate.text test (!negated) column marker).truth _ _ = _
      rw [Predicate.truth, Predicate.truth]
      cases negated <;> simp
    | _ => exact Predicate.truth_negation _
  outside c markers values := by
    change (Predicate.membership true c markers).truth _ _ = _
    rw [Predicate.truth]
    exact Bool.bne_true _
  blankness := by
    intro isBlank c path p p' q h
    obtain ⟨rfl, rfl⟩ := Build.pure_ok_iff.1 h
    exact ⟨Scope.growth.later_refl _, fun f _ => by rw [Predicate.truth]; rfl⟩

theorem dialog_whole (catalog : Catalog) (root : Collection) (limit : Nat) :
    (dialog catalog root limit).Whole (fun _ => True) False (· = none) where
  deciding h := by cases h
  test := by
    intro op c path text p p' q _ h
    obtain ⟨marker, rfl, _⟩ := test_ok h
    exact .text _ _ trivial marker
  unlike := by
    intro q h
    cases q with
    | text test negated column marker => exact .text test (!negated) trivial marker
    | _ => exact .negation h
  outside markers _ := .membership true trivial markers
  blankness := by
    intro isBlank c path p p' q _ h
    obtain ⟨rfl, rfl⟩ := Build.pure_ok_iff.1 h
    exact .blankness isBlank trivial rfl

/-- The filters of a relational target say what their terms say. -/
theorem spoken (catalog : Catalog) (root : Collection) (limit : Nat) (d : Dialect)
    (style : MarkerStyle) :
    Spoken (dialog catalog root limit) (voice d style) (fun _ => True) Scope.Grows sense where
  forms := ⟨False, (· = none), clear_voice d style, dialog_whole catalog root limit⟩
  issues := ⟨_, dialog_issues catalog root limit⟩
  truthful := dialog_truthful catalog root limit
  toMeaning _ := rfl

/-! ## The filter of a statement -/

/-- The statement up to its filter. -/
def Plan.front (d : Dialect) (p : Plan) : List Piece :=
  .fixed (if p.distinct then "SELECT DISTINCT " else "SELECT ") :: itemPieces d p.items ++
    [.fixed "\nFROM ", .name p.table, .fixed " ", .table 0] ++ p.joins.flatMap Join.pieces

/-- The statement behind its filter. -/
def Plan.back (d : Dialect) (p : Plan) : List Piece :=
  Piece.clause "\nGROUP BY " ", " (p.groups.map Column.pieces) ++ p.ordering d ++ p.page d

theorem pieces_eq_front_back (d : Dialect) (p : Plan) :
    p.pieces d = p.front d ++
      (Piece.clause "\nWHERE " " AND " (Predicate.piecesAll (phrasing d) p.filters) ++ p.back d) := by
  simp only [Plan.pieces, Plan.core, Plan.front, Plan.back, List.append_assoc, List.cons_append]

theorem length_markers_front (d : Dialect) {p : Plan} (h : p.Fits) :
    (Piece.markers (p.front d)).length = (p.items.flatMap fun item => item.expression.slots).length := by
  have hjoins : Piece.markers (p.joins.flatMap Join.pieces) = [] := by
    induction p.joins with
    | nil => rfl
    | cons j js ih => rw [List.flatMap_cons, Piece.markers_append, markers_join_pieces, ih]; rfl
  simp [Plan.front, markers_items d h.items, hjoins]

theorem later_of_orders {d : Dialog Scope Column} {s : Sense Column} (hd : d.Truthful Scope.Grows s)
    (r : Request) {sorts : List SortKey} : ∀ {p p' : Progress Scope} {os : List (OrderBy × Bool)},
      orders d r sorts p = .ok (os, p') → p.Later Scope.Grows p' := by
  induction sorts with
  | nil =>
    intro p p' os h
    obtain ⟨_, rfl⟩ := Build.pure_ok_iff.1 h
    exact Scope.growth.later_refl _
  | cons sort sorts ih =>
    intro p p' os h
    rw [orders] at h
    split at h
    · obtain ⟨by_, p₁, hby, h⟩ := Build.bind_ok_iff.1 h
      obtain ⟨_, rfl⟩ := Build.pure_ok_iff.1 hby
      obtain ⟨rest, hrest, _⟩ := Build.bind_pure_ok_iff.1 h
      exact ih hrest
    · obtain ⟨⟨column, property⟩, p₁, hresolve, h⟩ := Build.bind_ok_iff.1 h
      obtain ⟨by_, p₂, hby, h⟩ := Build.bind_ok_iff.1 h
      obtain ⟨_, rfl⟩ := Build.pure_ok_iff.1 hby
      obtain ⟨rest, hrest, _⟩ := Build.bind_pure_ok_iff.1 h
      exact Scope.growth.later_trans (hd.resolve hresolve).later (ih hrest)

/-- The statement has its filter behind `WHERE`, with the markers of the filter
numbered from those before it.  The filter has one reading, and this is true
when all terms hold, with the columns as they are known when the statement is
complete. -/
def FilterKept (catalog : Catalog) (config : Config) (r : Request) (st : Statement) : Prop :=
  ∃ (p : Plan) (found : List Item × List (Predicate Column) × List Column × List (OrderBy × Bool))
    (f : Progress Scope),
    plan catalog config r = .ok p ∧
    parts (dialog catalog r.collection config.maxRelationshipDepth.toNat) r ⟨[], .start⟩ =
      .ok (found, f) ∧
    st = p.statement st.dialect config.markerStyle ∧ f.values = st.values ∧
    st.sql = Piece.textAll (st.dialect.spelling config.markerStyle) (p.front st.dialect) ++
      (opened "\nWHERE " ((voice st.dialect config.markerStyle).filter p.filters) ++
        Piece.textAll (st.dialect.spelling config.markerStyle) (p.back st.dialect)) ∧
    (reader st.dialect).Says (st.dialect.marker config.markerStyle) st.values
      (Piece.markers (p.front st.dialect)).length
      ((voice st.dialect config.markerStyle).filter p.filters)
      fun ρ => r.filters.all ((sense ((voice st.dialect config.markerStyle).meaning ρ)).holds
        ((dialog catalog r.collection config.maxRelationshipDepth.toNat).look f))

/-- The filter of a plan is compiled behind its items, and later steps only look columns up. -/
theorem plan_filters {catalog : Catalog} {config : Config} {r : Request} {p : Plan}
    (h : plan catalog config r = .ok p) : ∃ found p₁ p₂ f,
      parts (dialog catalog r.collection config.maxRelationshipDepth.toNat) r ⟨[], .start⟩ =
        .ok (found, f) ∧
      (dialog catalog r.collection config.maxRelationshipDepth.toNat).predicates r.filters p₁ =
        .ok (p.filters, p₂) ∧
      p₂.Later Scope.Grows f ∧ f.values = p.values ∧
      p₁.values.length = (p.items.flatMap fun item => item.expression.slots).length := by
  have hissues := dialog_issues catalog r.collection config.maxRelationshipDepth.toNat
  have htruthful := dialog_truthful catalog r.collection config.maxRelationshipDepth.toNat
  obtain ⟨plain, computed, p₁, p₂, p₃, p₄, f, hcourse⟩ := plan_course h
  obtain ⟨found, hrun⟩ := hcourse.whole
  obtain ⟨bound, hbound, hnumbered⟩ := Issued.after
    (Dialog.values_eq_of_columns hissues hcourse.selected)
    (Dialog.issued_computed hissues unmarked_star hcourse.computed)
  refine ⟨found, p₂, p₃, f, hrun, hcourse.filtered, ?_, hcourse.values.symm, ?_⟩
  · have m : Meaning Column := ⟨fun _ _ _ => true, fun _ _ => true, fun _ => true,
      fun _ _ => true, fun _ _ _ => true⟩
    exact Scope.growth.later_trans (Dialog.later_of_groups (htruthful m) hcourse.grouped)
      (later_of_orders (htruthful m) r hcourse.ordered)
  · have hlength := congrArg List.length hnumbered.numbers_eq
    rw [List.length_map, List.length_range'] at hlength
    rw [hcourse.items, slots_planItems, hbound]
    exact hlength.symm

/-- The filter of a compiled statement is kept. -/
theorem filterKept_of_compile {catalog : Catalog} {config : Config} {d : Dialect} {r : Request}
    {st : Statement} (h : compile catalog config d r = .ok st) :
    FilterKept catalog config r st := by
  obtain ⟨p, hplan, hst⟩ := bind_eq_ok_iff.1 h
  obtain rfl := pure_eq_ok_iff.1 hst
  obtain ⟨_, hfits⟩ := plan_ok hplan
  obtain ⟨found, p₁, p₂, f, hrun, hfilters, hlater, hvalues, hlength⟩ := plan_filters hplan
  refine ⟨p, found, f, hplan, hrun, rfl, hvalues, ?_, ?_⟩
  · change Piece.textAll (d.spelling config.markerStyle) (p.pieces d) = _
    rw [pieces_eq_front_back, textAll_append, textAll_append]
    exact congrArg _ (congrArg (· ++ _) ((voice d config.markerStyle).textAll_clause _ _))
  · change (reader d).Says (d.marker config.markerStyle) p.values
      (Piece.markers (p.front d)).length ((voice d config.markerStyle).filter p.filters) _
    rw [length_markers_front d hfits, ← hlength, ← hvalues]
    exact (spoken catalog r.collection config.maxRelationshipDepth.toNat d
      config.markerStyle).says_filter (fun _ _ _ _ _ _ _ _ _ _ => trivial) hfilters hlater

end ResourceQuery.Sql

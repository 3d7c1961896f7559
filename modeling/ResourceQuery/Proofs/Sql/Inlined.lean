import ResourceQuery.Proofs.FilterText.Vocabulary
import ResourceQuery.Proofs.Sql.Filters

set_option autoImplicit false

/-!
# SQL: what stands in a statement unquoted

Outside of quotes a statement has the words of the dialect, the numbers of
tables, markers and numerals.  A result of a choice that is read as a number is
written as it is, and the names of numbers without bound are read so, too: they
are the only other words.

The statement is read by the lexicon of its dialect, piece by piece, down to the
words of computed columns.  Those are followed back to the request: a word of a
computed column is the name of a function, leads to a column, or is read as a
number (`plan_items`).
-/

namespace ResourceQuery.Sql

open FilterText Lexicon

/-! ## Keywords and phrases -/

/-- The words and operators that are written whatever is asked for. -/
def keywords : List String :=
  ["SELECT", "DISTINCT", "*", "AS", "FROM", "LEFT", "JOIN", "ON", "WHERE", "GROUP", "ORDER", "BY",
   "ASC", "DESC", "LIMIT", "OFFSET", "ROWS", "FETCH", "NEXT", "ONLY", "CASE", "WHEN", "THEN",
   "ELSE", "END", "COUNT", "SUM", "MIN", "MAX", "AVG", "AND", "OR", "NOT", "IN", "IS", "NULL",
   "LIKE", "ESCAPE", "=", "<>", "<", "<=", ">", ">="]

/-- The signs of the fixed texts. -/
def fixedSigns : List Sign :=
  keywords.map .word ++ ['(', ')', ',', '\n'].map .mark ++ [.quoted "", .quoted "\\"]

/-- The fixed texts that no word runs on behind. -/
@[simp] def phrases : List String :=
  [" IS NULL OR ", " = '')", " IS NOT NULL AND ", " <> '')", " LIKE ", " NOT LIKE ", " = ", " <> ",
   " < ", " <= ", " > ", " >= ", "SELECT ", "SELECT DISTINCT ", "\nFROM ", " ", "\nLEFT JOIN ",
   " ON ", "\nWHERE ", "\nGROUP BY ", "\nORDER BY ", "\nORDER BY (SELECT NULL)", "\n", "OFFSET ",
   " ROWS FETCH NEXT ", "LIMIT ", " OFFSET ", " AS ", "CASE WHEN ", " THEN ", " ELSE "]

/-- The fixed texts with a word at their end. -/
def endings : List String :=
  ["*", " IS NULL", " IS NOT NULL", " ASC", " DESC", " ROWS ONLY", " END", "COUNT", "SUM", "MIN",
   "MAX", "AVG"]

/-- The opening quotes of names in some dialect. -/
def nameQuotes : List Char := ['"', '\x60', '[']

/-- The text has none of the quotes of names. -/
def isUnquoted (text : String) : Bool := text.toList.all fun c => !nameQuotes.contains c

/-- All dialects read a text alike that has none of their quotes for names. -/
theorem run_eq_of_unquoted (d : Dialect) {text : String}
    (h : isUnquoted text = true) (p : Pending) :
    (reader d).run p text.toList = (reader .postgres).run p text.toList := by
  have hopen : ∀ d' : Dialect, d'.openQuote ∈ nameQuotes := by
    intro d'
    cases d' <;> decide
  have hescapes : (reader d).escapes = (reader .postgres).escapes := rfl
  refine Reader.run_congr hescapes rfl (fun c hc => ?_) p
  have hnone := List.all_eq_true.1 h c hc
  have hne : ∀ d' : Dialect, c ≠ d'.openQuote := by
    rintro d' rfl
    rw [List.contains_iff_mem.2 (hopen d')] at hnone
    cases hnone
  change (if c = d.openQuote then _ else _) = if c = Dialect.postgres.openQuote then _ else _
  rw [if_neg (hne d), if_neg (hne .postgres)]

/-- A test that comes down to reading is passed in all dialects, if texts
without quotes for names pass it in one of them. -/
theorem all_of_unquoted (d : Dialect) (f : Reader → String → Bool)
    (hread : ∀ text, isUnquoted text = true → f (reader d) text = f (reader .postgres) text)
    {texts : List String}
    (h : texts.all (fun text => isUnquoted text && f (reader .postgres) text) = true) :
    texts.all (f (reader d)) = true := by
  refine List.all_eq_true.2 fun text htext => ?_
  obtain ⟨hunquoted, hpasses⟩ := Bool.and_eq_true_iff.1 (List.all_eq_true.1 h text htext)
  rw [hread text hunquoted]
  exact hpasses

/-- Each of these texts is read as fixed signs, with nothing left open behind it. -/
theorem phrases_close (d : Dialect) :
    (connectives ++ phrases).all ((reader d).closesIn fixedSigns) = true := by
  refine all_of_unquoted d (fun r text => r.closesIn fixedSigns text) (fun text h => ?_)
    (by decide +kernel)
  rw [Reader.closesIn, Reader.closesIn, run_eq_of_unquoted d h]

theorem endings_end (d : Dialect) : endings.all ((reader d).endsIn fixedSigns) = true := by
  refine all_of_unquoted d (fun r text => r.endsIn fixedSigns text) (fun text h => ?_)
    (by decide +kernel)
  rw [Reader.endsIn, Reader.endsIn, run_eq_of_unquoted d h]

/-! ## The lexicon -/

/-- A table by its number, with what may stand behind it. -/
def tableWord (k : Nat) (suffix : String) : String := "t" ++ toString k ++ suffix

/-- The signs that a statement may have: quoted names and strings, punctuation,
keywords, tables, markers and decimal numerals. -/
inductive Expected (d : Dialect) (style : MarkerStyle) : Sign → Prop where
  | quoted (text : String) : Expected d style (.quoted text)
  | mark {c : Char} (h : c ∈ ['(', ')', ',', '\n']) : Expected d style (.mark c)
  | keyword {w : String} (h : w ∈ keywords) : Expected d style (.word w)
  | table (k : Nat) {suffix : String} (h : suffix ∈ ["", ".", ".*"]) :
      Expected d style (.word (tableWord k suffix))
  | marker (k : Nat) : Expected d style (.word (d.marker style k))
  | numeral {w : String} (h : Number.IsDecimal w) : Expected d style (.word w)

/-- What statements are made of, if the texts that are read as numbers are as told. -/
def lexicon (d : Dialect) (style : MarkerStyle) (number : String → Prop) : Lexicon Unit where
  reader := reader d
  spelling := d.spelling style
  fixed := fixedSigns
  extra s := Expected d style (s.spelled (d.marker style)) ∨ ∃ w, s = .word w ∧ number w
  content _ := []
  payload _ := []
  fixed_isFixed := (by decide : fixedSigns.all (Sign.isFixed (reader .postgres)) = true)
  fixed_content := List.all_eq_true.2 fun _ _ => rfl
  fixed_payload _ := rfl

theorem expected_of_fixed {d : Dialect} {style : MarkerStyle} {s : Sign} (h : s ∈ fixedSigns) :
    Expected d style (s.spelled (d.marker style)) := by
  rcases List.mem_append.1 h with h | hquoted
  · rcases List.mem_append.1 h with hword | hmark
    · obtain ⟨w, hw, rfl⟩ := List.mem_map.1 hword
      exact .keyword hw
    · obtain ⟨c, hc, rfl⟩ := List.mem_map.1 hmark
      exact .mark hc
  · simp only [List.mem_cons, List.not_mem_nil, or_false] at hquoted
    rcases hquoted with rfl | rfl
    · exact .quoted ""
    · exact .quoted "\\"

section Lexicon

variable {d : Dialect} {style : MarkerStyle} {number : String → Prop}

theorem knows : (lexicon d style number).Knows phrases endings :=
  ⟨fluent_reader d, phrases_close d, endings_end d⟩

theorem closes_sign (op : Comparison) :
    (lexicon d style number).closes s!" {op.sign (phrasing d).notEqual} " = true := by
  have hmem : s!" {op.sign (phrasing .postgres).notEqual} " ∈ connectives ++ phrases := by
    cases op <;> decide
  exact knows.phrase hmem

end Lexicon

/-! ## What is no fixed text -/

section Pieces

variable {d : Dialect} {style : MarkerStyle} {number : String → Prop}

/-- A lexicon that is not asked what signs are for shows all pieces that it has the signs of. -/
theorem shows_of_signs {ps : List Piece} {ss : List Sign}
    (h : Signs (reader d) (d.spelling style) ps ss)
    (hadmits : ∀ s ∈ ss, (lexicon d style number).Admits s) :
    (lexicon d style number).Shows ps := by
  refine ⟨ss, h, hadmits, ?_⟩
  rw [List.flatMap_eq_nil_iff.2 fun s _ => (rfl : (lexicon d style number).content s = []),
    List.flatMap_eq_nil_iff.2 fun p _ => (rfl : (lexicon d style number).payload p = [])]

theorem admits_quoted (text : String) : (lexicon d style number).Admits (.quoted text) :=
  .inr (.inl (.quoted text))

theorem admits_marker (k : Nat) : (lexicon d style number).Admits (.marker k) :=
  .inr (.inl (.marker k))

theorem shows_marker (k : Nat) : (lexicon d style number).Shows [.marker k] :=
  shows_of_signs (.marker (marker_ok d style k).1 (marker_ok d style k).2.1) fun _ hs =>
    List.mem_singleton.1 hs ▸ admits_marker k

/-- A quoted name is read as one sign, whatever characters it has. -/
theorem shows_name (text : String) : (lexicon d style number).Shows [.name text] := by
  have hspells : (reader d).Spells (d.quoteChars text.toList) [.quoted text] := by
    have hquoted := Reader.spells_quoted (r := reader d) rfl (by cases d <;> decide)
      (if_pos rfl : (reader d).closing d.openQuote = some d.closeQuote) (by cases d <;> decide)
      text.toList
    rwa [String.ofList_toList] at hquoted
  have hchars : FilterText.chars (d.spelling style) [.name text] = d.quoteChars text.toList := by
    rw [FilterText.chars, textAll_singleton]
    exact String.toList_ofList
  have hsigns : Signs (reader d) (d.spelling style) [.name text] [.quoted text] :=
    ⟨hchars ▸ hspells, fun s hs => .inl (List.mem_singleton.1 hs ▸ rfl)⟩
  exact shows_of_signs hsigns fun s hs => List.mem_singleton.1 hs ▸ admits_quoted text

theorem shows_column (c : Column) : (lexicon d style number).Shows c.pieces := by
  refine shows_of_signs (signs_column c) fun s hs => ?_
  rcases List.mem_cons.1 hs with rfl | hs
  · exact .inr (.inl (.table c.table (by decide)))
  · exact List.mem_singleton.1 hs ▸ admits_quoted c.name

theorem shows_table (k : Nat) : (lexicon d style number).Shows [.table k] := by
  have htext : (Piece.table k).text (d.spelling style) = "t" ++ toString k := rfl
  have hword : "t" ++ toString k = tableWord k "" := String.append_empty.symm
  have hlist : ("t" ++ toString k).toList = 't' :: (toString k).toList := String.toList_append
  have hletters : ∀ c ∈ ("t" ++ toString k).toList, (reader d).isLetter c = true :=
    Reader.isLetter_numbered (fluent_reader d).digits (by cases d <;> decide) k
  refine shows_of_signs (.word ?_ (htext ▸ hletters) ?_) fun s hs => ?_
  · rw [htext, hlist]
    exact List.cons_ne_nil _ _
  · rw [htext, Sign.isFixed, Reader.isMarker, hlist]
    rfl
  · rw [List.mem_singleton.1 hs, htext, hword]
    exact .inr (.inl (.table k (by decide)))

/-- All columns of the first table. -/
theorem shows_rows : (lexicon d style number).Shows [.table 0, .fixed ".*"] := by
  have hspells : (reader d).Spells "t0.*".toList [.word "t0.*"] := by
    have hrun : (reader d).run .rest "t0.*".toList = ([], .word "t0.*".toList) := by
      cases d <;> decide
    exact Reader.spells_of_run_word hrun
  have hsigns : Signs (reader d) (d.spelling style) [.table 0, .fixed ".*"] [.word "t0.*"] :=
    ⟨hspells, fun s hs => .inl (List.mem_singleton.1 hs ▸ rfl)⟩
  have hexpected : Expected d style (.word (tableWord 0 ".*")) := .table 0 (by decide)
  exact shows_of_signs hsigns fun s hs => List.mem_singleton.1 hs ▸ .inr (.inl hexpected)

/-- A text of the characters of numerals. -/
theorem signs_numeral {text : String} (hne : text.toList ≠ [])
    (h : ∀ c ∈ text.toList, Number.isNumeralChar c = true) :
    Signs (reader d) (d.spelling style) [.numeral text] [.word text] := by
  have hnone : [' ', '(', ')', ',', '\n', d.openQuote, '\'', '$', '?', '@'].any
      Number.isNumeralChar = false := by
    cases d <;> decide
  have hmem : ∀ c ∈ text.toList,
      c ∉ [' ', '(', ')', ',', '\n', d.openQuote, '\'', '$', '?', '@'] :=
    fun c hc hmem => List.any_eq_false.1 hnone c hmem (h c hc)
  have hletters : ∀ c ∈ text.toList, (reader d).isLetter c = true := fun c hc =>
    isLetter_of_not_mem fun hin => hmem c hc (List.mem_append_left ['$', '?', '@'] hin)
  have hfixed : (Sign.word text).isFixed (reader d) = true := by
    rw [Sign.isFixed, Reader.isMarker]
    cases hhead : text.toList.head? with
    | none => rfl
    | some first =>
      have hfirst := hmem first (List.mem_of_mem_head? hhead)
      simp only [List.mem_cons, List.not_mem_nil, or_false, not_or] at hfirst
      simp [reader, hfirst]
  exact .word hne hletters hfixed

theorem shows_count (n : Nat) : (lexicon d style number).Shows [.numeral (toString n)] := by
  have hsigns : Signs (reader d) (d.spelling style) [.numeral (toString n)] [.word (toString n)] :=
    signs_numeral (by simp [Nat.repr]) fun c hc =>
      Number.isNumeralChar_of_isDigit (Number.isDigit_of_mem_toString hc)
  exact shows_of_signs hsigns fun s hs =>
    List.mem_singleton.1 hs ▸ .inr (.inl (.numeral (Number.isDecimal_toString n)))

/-- A text that is read as a number is one word of the statement. -/
theorem shows_number {text : String} (h : Number.isNumber text = true) (hnumber : number text) :
    (lexicon d style number).Shows [.numeral text] := by
  have hne : text.toList ≠ [] := by
    intro hnil
    rw [String.toList_inj.1 (hnil.trans String.toList_empty.symm)] at h
    exact absurd h (by decide)
  exact shows_of_signs (signs_numeral hne (Number.isNumeralChar_of_isNumber h)) fun s hs =>
    List.mem_singleton.1 hs ▸ .inr (.inr ⟨text, rfl, hnumber⟩)

/-! ## Conditions and expressions -/

theorem shows_nullity (c : Column) (isNull : Bool) :
    (lexicon d style number).Shows ((phrasing d).nullity isNull c.pieces) := by
  cases isNull <;>
    exact (shows_column c).beside (.fixed (parts_blank rfl) []) (.ending (knows.ending (by decide)))

theorem shows_blankness (c : Column) (isBlank : Bool) :
    (lexicon d style number).Shows ((phrasing d).blankness isBlank c.pieces none) := by
  have hopened : (lexicon d style number).Shows (.fixed "(" :: c.pieces) :=
    .fixed (knows.phrase (by simp)) (shows_column c)
  cases isBlank <;>
    exact (hopened.between (parts_blank rfl) (knows.phrase (by simp)) (shows_column c)).before
      (parts_blank rfl) (knows.phrase (by simp))

/-- A marker and the declaration of the escape character behind it. -/
theorem shows_pattern (k : Nat) :
    (lexicon d style number).Shows [.marker k, .fixed (escapeSuffix d)] := by
  refine shows_of_signs (signs_pattern d style k) fun s hs => ?_
  rcases List.mem_cons.1 hs with rfl | hs
  · exact admits_marker k
  · have hfixed : ∀ s ∈ escapeSigns d, s ∈ fixedSigns := by
      intro s hs
      unfold escapeSigns at hs
      split at hs
      · have hall : [Sign.word "ESCAPE", .quoted "\\"].all fixedSigns.contains = true := by
          decide
        exact List.contains_iff_mem.1 (List.all_eq_true.1 hall s hs)
      · cases hs
    exact .inl (hfixed s hs)

theorem shows_text (c : Column) (test : TextTest) (negated : Bool) (k : Nat) :
    (lexicon d style number).Shows ((phrasing d).text test negated c.pieces k) := by
  have hlike : (lexicon d style number).closes (if negated then " NOT LIKE " else " LIKE ") = true := by
    cases negated <;> exact knows.phrase (by simp)
  have hparts : Parts (reader d) (if negated then " NOT LIKE " else " LIKE ") := by
    cases negated <;> exact parts_blank rfl
  exact (shows_column c).between hparts hlike (shows_pattern k)

/-- The lexicon has what predicates are written with. -/
theorem covers (d : Dialect) (style : MarkerStyle) (number : String → Prop) :
    (lexicon d style number).Covers (phrasing d) (fun _ => True) False (· = none) where
  toJoins := knows.joins
  deciding := False.elim
  sign := closes_sign
  marker := shows_marker
  column _ := shows_column _
  nullity _ isNull := shows_nullity _ isNull
  blankness := by
    rintro c _ marker rfl isBlank
    exact shows_blankness c isBlank
  text _ test negated k := shows_text _ test negated k

/-- The expressions of computed columns have no other words than these. -/
theorem shows_expression (hnumber : ∀ text, number text → Number.isNumber text = true)
    {e : Expression Column} (he : e.Whole (fun _ => True) False (· = none) number) :
    (lexicon d style number).Shows (e.pieces (phrasing d) .cases) := by
  refine (covers d style number).shows_expression .cases (knows.ending (by decide)) (fun f => ?_)
    (fun hc ht hf => ?_) (fun h => shows_number (hnumber _ h) h) he
  · cases f <;> exact knows.ending (by decide)
  · have hwhen := Shows.fixed (knows.phrase (by simp : "CASE WHEN " ∈ _)) hc
    have hthen := hwhen.between (parts_blank rfl) (knows.phrase (by simp : " THEN " ∈ _)) ht
    have helse := hthen.between (parts_blank rfl) (knows.phrase (by simp : " ELSE " ∈ _)) hf
    exact helse.beside (.fixed (parts_blank rfl) []) (.ending (knows.ending (by decide)))

/-! ## Statements -/

theorem shows_item (hnumber : ∀ text, number text → Number.isNumber text = true) {item : Item}
    (h : item.expression.Whole (fun _ => True) False (· = none) number) :
    (lexicon d style number).Shows (item.pieces d) := by
  unfold Item.pieces
  split
  · exact (shows_expression hnumber h).between (parts_blank rfl) (knows.phrase (by simp))
      (shows_name _)
  · exact (shows_expression hnumber h).beside .nil .nil

theorem shows_items (hnumber : ∀ text, number text → Number.isNumber text = true)
    {items : List Item}
    (h : ∀ item ∈ items, item.expression.Whole (fun _ => True) False (· = none) number) :
    (lexicon d style number).Shows (itemPieces d items) := by
  unfold itemPieces
  split
  · exact shows_rows
  · refine .join (parts_mark rfl rfl) (knows.phrase (by simp)) fun part hpart => ?_
    obtain ⟨item, hitem, rfl⟩ := List.mem_map.1 hpart
    exact shows_item hnumber (h item hitem)

theorem shows_join (j : Join) : (lexicon d style number).Shows j.pieces := by
  have hkeys : (lexicon d style number).Shows
      (Piece.join " AND " (j.keys.map (keyPieces j.source j.index))) := by
    refine .join (parts_blank rfl) (knows.phrase (by simp)) fun part hpart => ?_
    obtain ⟨k, _, rfl⟩ := List.mem_map.1 hpart
    exact (shows_column _).between (parts_blank rfl) (knows.phrase (by simp)) (shows_column _)
  exact .fixed (knows.phrase (by simp)) ((shows_name j.table).between (parts_blank rfl)
    (knows.phrase (by simp)) ((shows_table j.index).between (parts_blank rfl)
      (knows.phrase (by simp)) hkeys))

theorem shows_joins (js : List Join) :
    (lexicon d style number).Shows (js.flatMap Join.pieces) ∧
      Begins (reader d) (d.spelling style) (js.flatMap Join.pieces) := by
  induction js with
  | nil => exact ⟨.nil, .nil⟩
  | cons j js ih =>
    rw [List.flatMap_cons]
    exact ⟨(shows_join j).beside ih.2 ih.1, .append (.fixed (parts_mark rfl rfl) _) ih.2⟩

/-- The conditions and expressions of a plan are those that compilers give. -/
structure Plan.Whole (p : Plan) (number : String → Prop) : Prop where
  items : ∀ item ∈ p.items, item.expression.Whole (fun _ => True) False (· = none) number
  filters : ∀ q ∈ p.filters, q.Whole (fun _ => True) False (· = none)

theorem shows_front (hnumber : ∀ text, number text → Number.isNumber text = true) {p : Plan}
    (h : p.Whole number) : (lexicon d style number).Shows (p.front d) := by
  have hselect : (lexicon d style number).closes
      (if p.distinct then "SELECT DISTINCT " else "SELECT ") = true := by
    cases p.distinct <;> exact knows.phrase (by simp)
  have hitems := Shows.fixed hselect (shows_items hnumber h.items)
  have hfrom : (lexicon d style number).Shows
      [.fixed "\nFROM ", .name p.table, .fixed " ", .table 0] :=
    .fixed (knows.phrase (by simp)) ((shows_name p.table).between (parts_blank rfl)
      (knows.phrase (by simp)) (shows_table 0))
  obtain ⟨hjoins, hbegins⟩ := shows_joins p.joins
  exact (hitems.beside (.fixed (parts_mark rfl rfl) _) hfrom).beside hbegins hjoins

theorem shows_order (o : OrderBy × Bool) : (lexicon d style number).Shows (orderPieces o) := by
  obtain ⟨by_, ascending⟩ := o
  have hparts : Parts (reader d) (if ascending then " ASC" else " DESC") := by
    cases ascending <;> exact parts_blank rfl
  have hending : (lexicon d style number).Shows [.fixed (if ascending then " ASC" else " DESC")] := by
    cases ascending <;> exact .ending (knows.ending (by decide))
  cases by_ with
  | label name => exact (shows_name name).beside (.fixed hparts []) hending
  | column c => exact (shows_column c).beside (.fixed hparts []) hending

theorem shows_ordering (p : Plan) :
    (lexicon d style number).Shows (p.ordering d) ∧
      Begins (reader d) (d.spelling style) (p.ordering d) := by
  unfold Plan.ordering
  split
  · exact ⟨.fixed (knows.phrase (by simp)) .nil, .fixed (parts_mark rfl rfl) []⟩
  · refine ⟨.clause (knows.phrase (by simp)) (parts_mark rfl rfl) (knows.phrase (by simp)) ?_,
      .clause (parts_mark rfl rfl) _ _⟩
    intro part hpart
    obtain ⟨o, _, rfl⟩ := List.mem_map.1 hpart
    exact shows_order o

theorem shows_paging (d : Dialect) (limit : UInt64) (offset : Option UInt64) :
    (lexicon d style number).Shows (d.paging limit offset) := by
  have hrows : ∀ n : UInt64, (lexicon d style number).Shows [Dialect.rows n] :=
    fun n => shows_count n.toNat
  have hlimit : (lexicon d style number).Shows [.fixed "LIMIT ", Dialect.rows limit] :=
    .fixed (knows.phrase (by simp)) (hrows limit)
  have hoffset : ∀ n, (lexicon d style number).Shows
      [.fixed "LIMIT ", Dialect.rows limit, .fixed " OFFSET ", Dialect.rows n] :=
    fun n => hlimit.between (parts_blank rfl) (knows.phrase (by simp)) (hrows n)
  have hcomma : ∀ n, (lexicon d style number).Shows
      [.fixed "LIMIT ", Dialect.rows n, .fixed ", ", Dialect.rows limit] := by
    intro n
    have hfirst : (lexicon d style number).Shows [.fixed "LIMIT ", Dialect.rows n] :=
      .fixed (knows.phrase (by simp)) (hrows n)
    exact hfirst.between (parts_mark rfl rfl) (knows.phrase (by simp)) (hrows limit)
  have hfetch : (lexicon d style number).Shows [.fixed "OFFSET ", Dialect.rows (offset.getD 0),
      .fixed " ROWS FETCH NEXT ", Dialect.rows limit, .fixed " ROWS ONLY"] :=
    .fixed (knows.phrase (by simp)) ((hrows _).between (parts_blank rfl)
      (knows.phrase (by simp)) ((hrows limit).beside (.fixed (parts_blank rfl) [])
        (.ending (knows.ending (by decide)))))
  unfold Dialect.paging
  split
  · exact hfetch
  · exact hcomma _
  · exact hoffset _
  · exact hlimit

theorem shows_back (p : Plan) : (lexicon d style number).Shows (p.back d) ∧
    Begins (reader d) (d.spelling style) (p.back d) := by
  have hgroups : (lexicon d style number).Shows
      (Piece.clause "\nGROUP BY " ", " (p.groups.map Column.pieces)) := by
    refine .clause (knows.phrase (by simp)) (parts_mark rfl rfl) (knows.phrase (by simp)) ?_
    intro part hpart
    obtain ⟨c, _, rfl⟩ := List.mem_map.1 hpart
    exact shows_column c
  obtain ⟨hordering, hbegins⟩ := @shows_ordering d style number p
  have hpage : (lexicon d style number).Shows (p.page d) :=
    .fixed (knows.phrase (by simp)) (shows_paging d _ _)
  exact ⟨(hgroups.beside hbegins hordering).beside (.fixed (parts_mark rfl rfl) _) hpage,
    ((Begins.clause (parts_mark rfl rfl) _ _).append hbegins).append (.fixed (parts_mark rfl rfl) _)⟩

/-- The whole text of a plan is read as admitted signs. -/
theorem shows_pieces (hnumber : ∀ text, number text → Number.isNumber text = true) {p : Plan}
    (h : p.Whole number) : (lexicon d style number).Shows (p.pieces d) := by
  have hwhere : (lexicon d style number).Shows
      (Piece.clause "\nWHERE " " AND " (Predicate.piecesAll (phrasing d) p.filters)) :=
    .clause (knows.phrase (by simp)) (parts_blank rfl) (knows.phrase (by simp))
      ((covers d style number).shows_piecesAll h.filters)
  obtain ⟨hback, hbegins⟩ := @shows_back d style number p
  rw [pieces_eq_front_back]
  exact (shows_front hnumber h).beside ((Begins.clause (parts_mark rfl rfl) _ _).append hbegins)
    (hwhere.beside hbegins hback)

end Pieces

/-! ## Compiled statements -/

/-- The words of computed columns that are read as numbers. -/
def WrittenNumber (r : Request) (w : String) : Prop :=
  Number.isNumber w = true ∧
    ∃ c ∈ r.computed, ∃ u ∈ c.expression.subterms, u.isWord = true ∧ u.token = w

/-- The items of a plan are columns and the expressions of the computed columns,
in which all words are accounted for. -/
theorem plan_items {catalog : Catalog} {config : Config} {r : Request} {p : Plan}
    (h : plan catalog config r = .ok p) : p.Whole (WrittenNumber r) ∧
      ∃ (plain : List (String × Column × Property)) (es : List (Computed × Expression Column)),
        p.items = plain.map (fun c => plainItem c.1 c.2.1 c.2.2) ++
          es.map (fun e => computedItem e.1 e.2) ∧
        es.map Prod.fst = r.computed ∧
        ∀ e ∈ es, (dialog catalog r.collection config.maxRelationshipDepth.toNat).Accounts star
          .whole e.1.expression e.2 := by
  have hwhole := dialog_whole catalog r.collection config.maxRelationshipDepth.toNat
  have hstar : ∀ {inside : Bool} {t : Term} {e : Expression Column}, star inside t = some e →
      e.Whole (fun _ => True) False (· = none) (WrittenNumber r) := by
    intro inside t e h
    rw [(Expression.ofStar_eq_some h).1]
    exact .everything
  have hnumber : ∀ c ∈ r.computed, ∀ u ∈ c.expression.subterms, Dialog.isNumeral u = true →
      WrittenNumber r u.token := by
    intro c hc u hu hnumeral
    obtain ⟨hword, hnumber⟩ := Bool.and_eq_true_iff.1 hnumeral
    exact ⟨hnumber, c, hc, u, hu, hword, rfl⟩
  obtain ⟨plain, computed, p₁, p₂, p₃, p₄, f, hcourse⟩ := plan_course h
  refine ⟨⟨fun item hitem => ?_, ?_⟩, plain, computed, hcourse.items,
    Dialog.map_fst_computed hcourse.computed, Dialog.accounts_computed hcourse.computed⟩
  · rw [hcourse.items] at hitem
    rcases List.mem_append.1 hitem with hitem | hitem
    · obtain ⟨column, _, rfl⟩ := List.mem_map.1 hitem
      exact .column trivial
    · obtain ⟨e, he, rfl⟩ := List.mem_map.1 hitem
      exact (Dialog.whole_computed hwhole hstar (fun _ _ _ _ _ _ _ _ _ _ _ => trivial) hnumber
        hcourse.computed e he).2
  · exact Dialog.whole_predicates hwhole (fun _ _ _ _ _ _ _ _ _ _ => trivial) hcourse.filtered

/-- Outside of quotes, statements have keywords, operators, punctuation, tables,
markers and decimal numerals; any other word is the name of a number without
bound, which stands in a computed column of the request.  Apart from numbers in
the results of choices, all words of computed columns stand for whole rows,
functions and columns. -/
theorem compile_inlines_numbers (catalog : Catalog) (config : Config) (d : Dialect) (r : Request)
    (st : Statement) (h : compile catalog config d r = .ok st) :
    (∃ signs, (reader d).lex st.sql.toList = some signs ∧ ∀ s ∈ signs,
      Expected d config.markerStyle s ∨ ∃ w, s = .word w ∧ Number.isBoundless w = true ∧
        ∃ c ∈ r.computed, ∃ u ∈ c.expression.subterms, u.isWord = true ∧ u.token = w) ∧
    ∃ (p : Plan) (plain : List (String × Column × Property))
        (es : List (Computed × Expression Column)),
      plan catalog config r = .ok p ∧ st = p.statement d config.markerStyle ∧
      p.items = plain.map (fun c => plainItem c.1 c.2.1 c.2.2) ++
        es.map (fun e => computedItem e.1 e.2) ∧
      es.map Prod.fst = r.computed ∧
      ∀ e ∈ es, (dialog catalog r.collection config.maxRelationshipDepth.toNat).Accounts star
        .whole e.1.expression e.2 := by
  obtain ⟨p, hplan, hst⟩ := bind_eq_ok_iff.1 h
  obtain rfl := pure_eq_ok_iff.1 hst
  obtain ⟨hwhole, plain, es, hitems, hcomputed, haccounts⟩ := plan_items hplan
  refine ⟨?_, p, plain, es, hplan, rfl, hitems, hcomputed, haccounts⟩
  have hshows : (lexicon d config.markerStyle (WrittenNumber r)).Shows (p.pieces d) :=
    shows_pieces (fun _ hnumber => hnumber.1) hwhole
  obtain ⟨ss, hlex, _, hadmits, _⟩ := hshows.lex_eq
  refine ⟨_, hlex, fun s hs => ?_⟩
  obtain ⟨s, hmem, rfl⟩ := List.mem_map.1 hs
  rcases hadmits s hmem with hfixed | hexpected | ⟨w, rfl, hnumber, horigin⟩
  · exact .inl (expected_of_fixed hfixed)
  · exact .inl hexpected
  · rcases Bool.or_eq_true_iff.1 hnumber with hdecimal | hboundless
    · exact .inl (.numeral (Number.decimal?_isSome_iff.1 hdecimal))
    · exact .inr ⟨w, rfl, hboundless, horigin⟩

/-- Orders with a column that is one of two results. -/
def resultsOf (whenTrue whenFalse : String) : Request where
  collection := ⟨"orders", some "Orders", [⟨"freight", some "Freight", .decimal, true⟩], [], []⟩
  filters := []
  page := .none
  after := none
  sorts := []
  groups := []
  includes := []
  computed := [⟨.call "if" [.call "eq" [.word "freight", .word "1"], .word whenTrue,
    .word whenFalse], .word "flag"⟩]
  distinct := false
  rowCount := false

theorem compile_inlines_numerals : ∃ st signs,
    compile ⟨[]⟩ .standard .sqlserver (resultsOf "+1.5E-3" ".5") = .ok st ∧
    st.sql = "SELECT CASE WHEN t0.[Freight] = ? THEN +1.5E-3 ELSE .5 END AS [flag]" ++
      "\nFROM [Orders] t0\nORDER BY (SELECT NULL)\nOFFSET 0 ROWS FETCH NEXT 100 ROWS ONLY" ∧
    (reader .sqlserver).lex st.sql.toList = some signs ∧
    ∀ s ∈ signs, Expected .sqlserver Config.standard.markerStyle s ∨
      ∃ w, s = .word w ∧ Number.isBoundless w = true ∧ ∃ c ∈ (resultsOf "+1.5E-3" ".5").computed,
        ∃ u ∈ c.expression.subterms, u.isWord = true ∧ u.token = w := by
  have hsql : (compile ⟨[]⟩ .standard .sqlserver (resultsOf "+1.5E-3" ".5")).toOption.map
      Statement.sql = some
        ("SELECT CASE WHEN t0.[Freight] = ? THEN +1.5E-3 ELSE .5 END AS [flag]" ++
          "\nFROM [Orders] t0\nORDER BY (SELECT NULL)\nOFFSET 0 ROWS FETCH NEXT 100 ROWS ONLY") := by
    decide +kernel
  obtain ⟨st, hcompile, htext⟩ := Option.map_eq_some_iff.1 hsql
  obtain ⟨⟨signs, hlex, hsigns⟩, _⟩ := compile_inlines_numbers ⟨[]⟩ .standard .sqlserver
    (resultsOf "+1.5E-3" ".5") st (eq_ok_of_toOption hcompile)
  exact ⟨st, signs, eq_ok_of_toOption hcompile, htext, hlex, hsigns⟩

/-- The names of numbers without bound are written as they are, and they are no numerals. -/
theorem compile_inlines_boundless : ∃ st signs,
    compile ⟨[]⟩ .standard .postgres (resultsOf "nan" "Infinity") = .ok st ∧
    st.sql = "SELECT CASE WHEN t0.\"Freight\" = ? THEN nan ELSE Infinity END AS \"flag\"" ++
      "\nFROM \"Orders\" t0\nLIMIT 100" ∧
    (reader .postgres).lex st.sql.toList = some signs ∧ .word "nan" ∈ signs ∧
    ¬Expected .postgres Config.standard.markerStyle (.word "nan") := by
  have hsql : (compile ⟨[]⟩ .standard .postgres (resultsOf "nan" "Infinity")).toOption.map
      Statement.sql = some
        ("SELECT CASE WHEN t0.\"Freight\" = ? THEN nan ELSE Infinity END AS \"flag\"" ++
          "\nFROM \"Orders\" t0\nLIMIT 100") := by
    decide +kernel
  have hsigns : ((reader .postgres).lex
      ("SELECT CASE WHEN t0.\"Freight\" = ? THEN nan ELSE Infinity END AS \"flag\"" ++
        "\nFROM \"Orders\" t0\nLIMIT 100").toList).map (List.contains · (.word "nan")) = some true := by
    decide +kernel
  obtain ⟨st, hcompile, htext⟩ := Option.map_eq_some_iff.1 hsql
  obtain ⟨signs, hlex, hmem⟩ := Option.map_eq_some_iff.1 hsigns
  refine ⟨st, signs, eq_ok_of_toOption hcompile, htext, htext ▸ hlex,
    List.contains_iff_mem.1 hmem, ?_⟩
  generalize hsign : Sign.word "nan" = s
  intro h
  cases h with
  | quoted | mark => cases hsign
  | keyword hkeyword =>
    obtain rfl := Sign.word.inj hsign
    exact absurd hkeyword (by decide)
  | table k _ =>
    have hlead := congrArg (fun w => w.toList.head?) (Sign.word.inj hsign)
    simp [tableWord, String.toList_append] at hlead
  | marker k =>
    have hmarker := (marker_ok .postgres Config.standard.markerStyle k).2.2
    rw [← Sign.word.inj hsign] at hmarker
    exact absurd hmarker (by decide)
  | numeral hdecimal =>
    obtain rfl := Sign.word.inj hsign
    exact absurd (Number.decimal?_isSome_iff.2 hdecimal) (by decide)

end ResourceQuery.Sql

import ResourceQuery.Proofs.FilterText.Predicates

set_option autoImplicit false

/-!
# Filter texts: what a text is made of

A lexicon has the words and marks that a target writes by itself, and says which
other signs it admits and what they are for.  Pieces *show* what they carry if
their text is read as admitted signs with just that content, in its order.  For
predicates and computed columns it is enough to know this of the target's
phrases.

The table of fixed texts is the only thing that a target checks by computation
(`Knows`); all else follows the structure of predicates and expressions.
-/

namespace ResourceQuery

variable {σ C : Type}

/-! ## Compiled expressions -/

/-- The expressions that compilers give: columns are `good`, and texts that
stand for themselves are a `number`. -/
inductive Expression.Whole (good : C → Prop) (conditional : Prop) (blank : Option Nat → Prop)
    (number : String → Prop) : Expression C → Prop where
  | everything : Whole good conditional blank number .everything
  | column {c : C} (h : good c) : Whole good conditional blank number (.column c)
  | numeral {text : String} (h : number text) : Whole good conditional blank number (.numeral text)
  | aggregate (function : Aggregate) {argument : Expression C}
      (h : Whole good conditional blank number argument) :
      Whole good conditional blank number (.aggregate function argument)
  | choice {c : Predicate C} {t f : Expression C} (hc : c.Whole good conditional blank)
      (ht : Whole good conditional blank number t) (hf : Whole good conditional blank number f) :
      Whole good conditional blank number (.choice c t f)

/-- The columns that a term and those in it name are good, whether they are
named by the term itself or by its first argument. -/
def Dialog.Meets (d : Dialog σ C) (good : C → Prop) (t : Term) : Prop :=
  ∀ u ∈ t.subterms, ∀ path, u.column = .ok path ∨ u.token = path →
    ∀ (p p' : Progress σ) (c : C) (property : Property),
      d.resolve path p = .ok ((c, property), p') → good c

namespace Dialog

variable {d : Dialog σ C} {good : C → Prop} {conditional : Prop} {blank : Option Nat → Prop}
  {number : String → Prop} {star : Bool → Term → Option (Expression C)}

theorem Meets.finds {t : Term} (h : d.Meets good t) : d.Finds good t :=
  fun u hu p p' _ c property ha => h u hu _ (.inl ha.path_eq) p p' c property ha.resolves

theorem Meets.child {token : String} {quote : Option Quote} {children : List Term} {t : Term}
    (h : d.Meets good (.node token quote children)) (ht : t ∈ children) : d.Meets good t :=
  fun u hu => h u (Term.mem_subterms_of_child ht hu)

/-- The compiler of expressions gives whole ones; its numerals are words of the term. -/
theorem whole_expression (hd : d.Whole good conditional blank)
    (hstar : ∀ {inside : Bool} {t : Term} {e : Expression C}, star inside t = some e →
      e.Whole good conditional blank number) (t : Term) (hmeets : d.Meets good t)
    (hnumber : ∀ u ∈ t.subterms, isNumeral u = true → number u.token) :
    ∀ {inside : Bool} {p p' : Progress σ} {e : Expression C},
      d.expression star inside t p = .ok (e, p') → e.Whole good conditional blank number := by
  induction t using Term.induction with
  | node token quote children ih =>
    intro inside p p' e h
    have ih : ∀ t ∈ children, ∀ {inside : Bool} {p p' : Progress σ} {e : Expression C},
        d.expression star inside t p = .ok (e, p') → e.Whole good conditional blank number :=
      fun t ht => ih t ht (hmeets.child ht)
        fun u hu => hnumber u (Term.mem_subterms_of_child ht hu)
    have hbranch : ∀ t ∈ children, ∀ {p p' : Progress σ} {e : Expression C},
        branch t (d.expression star false t) p = .ok (e, p') →
          e.Whole good conditional blank number := by
      intro t ht p p' e h
      rcases branch_ok h with ⟨hnumeral, rfl, _⟩ | ⟨_, h⟩
      · exact .numeral (hnumber t (Term.mem_subterms_of_child ht t.mem_subterms_self) hnumeral)
      · exact ih t ht h
    cases run_of_expression h with
    | whole hwhole => exact hstar hwhole
    | column _ hresolve =>
      exact .column (hmeets _ (Term.mem_subterms_self _) _ (.inr rfl) _ _ _ _ hresolve)
    | aggregate _ _ hargument => exact .aggregate _ (ih _ (List.mem_singleton_self _) hargument)
    | choice _ _ _ hc ht hf =>
      exact .choice (whole_predicate hd _ (hmeets.child (by simp)).finds hc)
        (hbranch _ (by simp) ht) (hbranch _ (by simp) hf)

theorem whole_computed (hd : d.Whole good conditional blank)
    (hstar : ∀ {inside : Bool} {t : Term} {e : Expression C}, star inside t = some e →
      e.Whole good conditional blank number) {cs : List Computed}
    (hmeets : ∀ c ∈ cs, d.Meets good c.expression)
    (hnumber : ∀ c ∈ cs, ∀ u ∈ c.expression.subterms, isNumeral u = true → number u.token)
    {p p' : Progress σ} {es : List (Computed × Expression C)}
    (h : d.computed star cs p = .ok (es, p')) :
    ∀ e ∈ es, e.1 ∈ cs ∧ e.2.Whole good conditional blank number := by
  rw [computed_eq_mapM, Build.mapM_ok_iff] at h
  refine forall_of_each h fun c hc p p' e he => ?_
  obtain ⟨e', hexpression, rfl⟩ := Build.bind_pure_ok_iff.1 he
  exact ⟨hc, whole_expression hd hstar c.expression (hmeets c hc) (hnumber c hc) hexpression⟩

theorem map_fst_computed {cs : List Computed} : ∀ {p p' : Progress σ}
    {es : List (Computed × Expression C)}, d.computed star cs p = .ok (es, p') →
      es.map Prod.fst = cs := by
  induction cs with
  | nil =>
    intro p p' es h
    obtain ⟨rfl, _⟩ := Build.pure_ok_iff.1 h
    rfl
  | cons c cs ih =>
    intro p p' es h
    rw [computed] at h
    obtain ⟨e, p₁, _, h⟩ := Build.bind_ok_iff.1 h
    obtain ⟨rest, hrest, rfl⟩ := Build.bind_pure_ok_iff.1 h
    rw [List.map_cons, ih hrest]

theorem accounts_computed {cs : List Computed} {p p' : Progress σ}
    {es : List (Computed × Expression C)} (h : d.computed star cs p = .ok (es, p')) :
    ∀ e ∈ es, d.Accounts star .whole e.1.expression e.2 := by
  rw [computed_eq_mapM, Build.mapM_ok_iff] at h
  refine forall_of_each h fun c _ p p' e he => ?_
  obtain ⟨e', hexpression, rfl⟩ := Build.bind_pure_ok_iff.1 he
  exact accounts_expression c.expression .whole (fun h => by cases h) hexpression

end Dialog

/-! ## Lexicons -/

namespace FilterText

/-- The text of a word. -/
def Sign.word? : Sign → Option String
  | .word w => some w
  | _ => none

/-- The words among the signs that start with the character. -/
def wordsWith (lead : Char) (signs : List Sign) : List String :=
  (signs.filterMap Sign.word?).filter fun w => w.toList.head? = some lead

/-- The text is read as signs of the list, and none goes on behind it. -/
def Reader.closesIn (r : Reader) (fixed : List Sign) (text : String) : Bool :=
  (r.run .rest text.toList).2 = .rest && (r.run .rest text.toList).1.all fixed.contains

/-- The text is read as signs of the list and a word of the list at its end. -/
def Reader.endsIn (r : Reader) (fixed : List Sign) (text : String) : Bool :=
  match (r.run .rest text.toList).2 with
  | .word w => ((r.run .rest text.toList).1 ++ [Sign.word (String.ofList w)]).all fixed.contains
  | _ => false

/-- What the texts of a target are made of. -/
structure Lexicon (β : Type) where
  reader : Reader
  spelling : Spelling
  /-- The keywords, operators and marks that the target writes by itself. -/
  fixed : List Sign
  /-- The other signs that there may be. -/
  extra : Sign → Prop
  /-- What a sign is for. -/
  content : Sign → List β
  /-- What a piece carries. -/
  payload : Piece → List β
  fixed_isFixed : fixed.all (Sign.isFixed reader) = true
  fixed_content : fixed.all (fun s => (content s).isEmpty) = true
  fixed_payload : ∀ text, payload (.fixed text) = []

namespace Lexicon

variable {β : Type} (L : Lexicon β)

/-- The lexicon has the sign. -/
def Admits (s : Sign) : Prop := s ∈ L.fixed ∨ L.extra s

/-- The text of the pieces is read as admitted signs, which are for what the pieces carry. -/
def Shows (ps : List Piece) : Prop :=
  ∃ ss, Signs L.reader L.spelling ps ss ∧ (∀ s ∈ ss, L.Admits s) ∧
    ss.flatMap L.content = ps.flatMap L.payload

/-- The fixed text is read as signs of the lexicon, and none goes on behind it. -/
def closes (text : String) : Bool := L.reader.closesIn L.fixed text

/-- The fixed text is read as signs of the lexicon and a word of the lexicon at its end. -/
def ends (text : String) : Bool := L.reader.endsIn L.fixed text

variable {L} {text : String} {ps qs : List Piece}

/-- Signs that are all in the table are fixed ones and carry nothing. -/
theorem signs_of_contains {gs : List Sign} (h : gs.all L.fixed.contains = true) :
    gs.all (Sign.isFixed L.reader) = true ∧ (∀ s ∈ gs, L.Admits s) ∧
      gs.flatMap L.content = [] := by
  have hmem : ∀ s ∈ gs, s ∈ L.fixed := fun s hs =>
    List.contains_iff_mem.1 (List.all_eq_true.1 h s hs)
  refine ⟨List.all_eq_true.2 fun s hs => List.all_eq_true.1 L.fixed_isFixed s (hmem s hs),
    fun s hs => .inl (hmem s hs), List.flatMap_eq_nil_iff.2 fun s hs => ?_⟩
  exact List.isEmpty_iff.1 (List.all_eq_true.1 L.fixed_content s (hmem s hs))

/-- A fixed text that is closed. -/
theorem fixed_of_closes (h : L.closes text = true) :
    ∃ gs, Fixed L.reader text gs ∧ (∀ s ∈ gs, L.Admits s) ∧ gs.flatMap L.content = [] := by
  rw [closes, Reader.closesIn, Bool.and_eq_true, decide_eq_true_eq] at h
  obtain ⟨hfixed, hadmits, hcontent⟩ := signs_of_contains h.2
  exact ⟨_, ⟨Prod.ext rfl h.1, hfixed⟩, hadmits, hcontent⟩

namespace Shows

theorem nil : L.Shows [] := ⟨[], .nil, fun _ h => absurd h List.not_mem_nil, rfl⟩

/-- A fixed text before pieces. -/
theorem fixed (h : L.closes text = true) (h' : L.Shows qs) : L.Shows (.fixed text :: qs) := by
  obtain ⟨gs, hfixed, hadmits, hcontent⟩ := fixed_of_closes h
  obtain ⟨tt, hsigns, hadmits', hcontent'⟩ := h'
  refine ⟨gs ++ tt, .fixed hfixed hsigns, fun s hs => ?_, ?_⟩
  · exact (List.mem_append.1 hs).elim (hadmits s) (hadmits' s)
  · rw [List.flatMap_append, hcontent, hcontent', List.flatMap_cons, L.fixed_payload]

/-- A fixed text with a word at its end. -/
theorem ending (h : L.ends text = true) : L.Shows [.fixed text] := by
  unfold ends Reader.endsIn at h
  split at h
  · next w hpending =>
    obtain ⟨hfixed, hadmits, hcontent⟩ := signs_of_contains h
    have hrun : L.reader.run .rest text.toList =
        ((L.reader.run .rest text.toList).1, .word w) := Prod.ext rfl hpending
    refine ⟨_, ⟨?_, fun s hs => .inl (List.all_eq_true.1 hfixed s hs)⟩, hadmits, ?_⟩
    · rw [map_spelled_of_fixed (List.all_eq_true.1 hfixed), chars_cons]
      exact (List.append_nil _).symm ▸ Reader.spells_of_run_word hrun
    · rw [hcontent, List.flatMap_cons, L.fixed_payload]
      rfl
  · cases h

/-- Pieces before others that start with a delimiter, or with nothing. -/
theorem beside (h : L.Shows ps) (hqs : Begins L.reader L.spelling qs) (h' : L.Shows qs) :
    L.Shows (ps ++ qs) := by
  obtain ⟨ss, hsigns, hadmits, hcontent⟩ := h
  obtain ⟨tt, hsigns', hadmits', hcontent'⟩ := h'
  refine ⟨ss ++ tt, hsigns.beside hqs hsigns', fun s hs => ?_, ?_⟩
  · exact (List.mem_append.1 hs).elim (hadmits s) (hadmits' s)
  · rw [List.flatMap_append, List.flatMap_append, hcontent, hcontent']

/-- Pieces, a fixed text and other pieces. -/
theorem between (h : L.Shows ps) (hparts : Parts L.reader text) (htext : L.closes text = true)
    (h' : L.Shows qs) : L.Shows (ps ++ .fixed text :: qs) :=
  h.beside (.fixed hparts qs) (.fixed htext h')

/-- Pieces and a fixed text behind them. -/
theorem before (h : L.Shows ps) (hparts : Parts L.reader text) (htext : L.closes text = true) :
    L.Shows (ps ++ [.fixed text]) :=
  h.between hparts htext .nil

theorem join {glue : String} (hparts : Parts L.reader glue) (hglue : L.closes glue = true)
    {parts : List (List Piece)} (h : ∀ part ∈ parts, L.Shows part) :
    L.Shows (Piece.join glue parts) := by
  induction parts with
  | nil => exact .nil
  | cons part parts ih =>
    have hpart := h part List.mem_cons_self
    cases parts with
    | nil => exact hpart
    | cons next others =>
      exact hpart.between hparts hglue (ih fun p hp => h p (List.mem_cons_of_mem part hp))

theorem clause {opening glue : String} (hopening : L.closes opening = true)
    (hparts : Parts L.reader glue) (hglue : L.closes glue = true) {parts : List (List Piece)}
    (h : ∀ part ∈ parts, L.Shows part) : L.Shows (Piece.clause opening glue parts) := by
  unfold Piece.clause
  split
  · exact .nil
  · exact .fixed hopening (join hparts hglue h)

/-- A piece of letters. -/
theorem word {piece : Piece} (hne : (piece.text L.spelling).toList ≠ [])
    (hletters : ∀ c ∈ (piece.text L.spelling).toList, L.reader.isLetter c = true)
    (hfixed : (Sign.word (piece.text L.spelling)).isFixed L.reader = true)
    (hadmits : L.Admits (.word (piece.text L.spelling)))
    (hcontent : L.content (.word (piece.text L.spelling)) = L.payload piece) :
    L.Shows [piece] := by
  refine ⟨_, .word hne hletters hfixed, fun s hs => List.mem_singleton.1 hs ▸ hadmits, ?_⟩
  rw [List.flatMap_singleton, List.flatMap_singleton, hcontent]

/-- What the signs of the text are. -/
theorem lex_eq (h : L.Shows ps) : ∃ ss : List Sign,
    L.reader.lex (Piece.textAll L.spelling ps).toList =
        some (ss.map (Sign.spelled L.spelling.marker)) ∧
      (∀ s ∈ ss, s.isFixed L.reader = true ∨ ∃ k, s = .marker k) ∧ (∀ s ∈ ss, L.Admits s) ∧
      ss.flatMap L.content = ps.flatMap L.payload := by
  obtain ⟨ss, hsigns, hadmits, hcontent⟩ := h
  exact ⟨ss, hsigns.spells.lex_eq, hsigns.plain, hadmits, hcontent⟩

end Shows

/-! ## Predicates -/

/-- The fixed texts between and around conditions. -/
@[simp] def connectives : List String :=
  [" AND ", " OR ", "NOT (", "NOT ", "", "(", ")", ", ", " IN (", " NOT IN ("]

/-- The lexicon has what stands between and around conditions. -/
structure Joins (L : Lexicon β) : Prop where
  fluent : Fluent L.reader
  connective : ∀ text ∈ connectives, L.closes text = true

/-- The lexicon has the phrases, behind which no word runs on, and the endings,
which have a word at their end. -/
structure Knows (L : Lexicon β) (phrases endings : List String) : Prop where
  fluent : Fluent L.reader
  phrases_close : (connectives ++ phrases).all L.closes = true
  endings_end : endings.all L.ends = true

namespace Knows

variable {phrases endings : List String}

theorem phrase (h : L.Knows phrases endings) (hmem : text ∈ connectives ++ phrases) :
    L.closes text = true :=
  List.all_eq_true.1 h.phrases_close text hmem

theorem ending (h : L.Knows phrases endings) (hmem : text ∈ endings) : L.ends text = true :=
  List.all_eq_true.1 h.endings_end text hmem

theorem joins (h : L.Knows phrases endings) : L.Joins where
  fluent := h.fluent
  connective _ hmem := h.phrase (List.mem_append_left phrases hmem)

end Knows

namespace Joins

theorem enclosed (h : L.Joins) (hps : L.Shows ps) : L.Shows (Predicate.enclosed ps) :=
  .fixed (h.connective _ (by decide)) (hps.before h.fluent.closes (h.connective _ (by decide)))

/-- A function of a column and a bound value. -/
theorem function (h : L.Joins) (f : TextFunctions) {test : TextTest}
    (hopening : L.closes (f.opening test) = true) {column : List Piece}
    (hcolumn : L.Shows column) {k : Nat} (hk : L.Shows [.marker k]) (negated : Bool) :
    L.Shows (f.pieces test negated column k) := by
  have hnot : L.closes (if negated then "NOT " else "") = true := by
    cases negated <;> exact h.connective _ (by decide)
  have harguments : L.Shows (column ++ .fixed ", " :: [.marker k] ++ [.fixed ")"]) :=
    (hcolumn.between h.fluent.parts (h.connective _ (by decide)) hk).before h.fluent.closes
      (h.connective _ (by decide))
  rw [List.append_assoc] at harguments
  exact .fixed hnot (.fixed hopening harguments)

end Joins

/-- The lexicon has what the predicates of a target are written with. -/
structure Covers (L : Lexicon β) (s : Phrasing C) (good : C → Prop) (conditional : Prop)
    (blank : Option Nat → Prop) : Prop extends Joins L where
  deciding : conditional → L.closes " ? " = true ∧ L.closes " : " = true
  sign : ∀ op : Comparison, L.closes s!" {op.sign s.notEqual} " = true
  marker : ∀ k, L.Shows [.marker k]
  column : ∀ {c}, good c → L.Shows (s.column c)
  nullity : ∀ {c}, good c → ∀ isNull, L.Shows (s.nullity isNull (s.column c))
  blankness : ∀ {c}, good c → ∀ {marker}, blank marker → ∀ isBlank,
    L.Shows (s.blankness isBlank (s.column c) marker)
  text : ∀ {c}, good c → ∀ test negated k, L.Shows (s.text test negated (s.column c) k)

namespace Covers

variable {s : Phrasing C} {good : C → Prop} {conditional : Prop} {blank : Option Nat → Prop}
  {number : String → Prop}

/-- The text of a predicate is made of what the lexicon has. -/
theorem shows_predicate (h : L.Covers s good conditional blank) {q : Predicate C}
    (hq : q.Whole good conditional blank) : L.Shows (q.pieces s) := by
  have hjoin : ∀ {parts : List (Predicate C)} {glue : String},
      (∀ q ∈ parts, L.Shows (q.pieces s)) → Parts L.reader glue → L.closes glue = true →
      L.Shows (Piece.join glue (Predicate.piecesAll s parts)) := by
    intro parts glue hparts hglue hcloses
    refine .join hglue hcloses fun part hpart => ?_
    rw [Predicate.piecesAll_eq_map] at hpart
    obtain ⟨q, hq, rfl⟩ := List.mem_map.1 hpart
    exact hparts q hq
  induction hq with
  | all _ _ ih =>
    rw [Predicate.pieces]
    exact h.toJoins.enclosed (hjoin ih (parts_blank rfl) (h.connective _ (by decide)))
  | any _ _ ih =>
    rw [Predicate.pieces]
    exact h.toJoins.enclosed (hjoin ih (parts_blank rfl) (h.connective _ (by decide)))
  | negation _ ih =>
    rw [Predicate.pieces]
    exact .fixed (h.connective _ (by decide)) (ih.before h.fluent.closes (h.connective _ (by decide)))
  | choice hconditional _ _ _ ihc iht ihf =>
    obtain ⟨hask, hcolon⟩ := h.deciding hconditional
    rw [Predicate.pieces, List.append_assoc]
    exact h.toJoins.enclosed (ihc.between (parts_blank rfl) hask (iht.between (parts_blank rfl) hcolon ihf))
  | comparison op hc k =>
    rw [Predicate.pieces]
    exact (h.column hc).between (parts_blank (Voice.Clear.head?_blank _)) (h.sign op) (h.marker k)
  | membership negated hc ks =>
    have hopening : L.closes (if negated then " NOT IN (" else " IN (") = true := by
      cases negated <;> exact h.connective _ (by decide)
    have hparts : Parts L.reader (if negated then " NOT IN (" else " IN (") := by
      cases negated <;> exact parts_blank rfl
    have hlist : L.Shows (Piece.join ", " (ks.map fun k => [.marker k])) := by
      refine .join h.fluent.parts (h.connective _ (by decide)) fun part hpart => ?_
      obtain ⟨k, _, rfl⟩ := List.mem_map.1 hpart
      exact h.marker k
    rw [Predicate.pieces]
    exact ((h.column hc).between hparts hopening hlist).before h.fluent.closes
      (h.connective _ (by decide))
  | nullity isNull hc =>
    rw [Predicate.pieces]
    exact h.nullity hc isNull
  | blankness isBlank hc hmarker =>
    rw [Predicate.pieces]
    exact h.blankness hc hmarker isBlank
  | text test negated hc k =>
    rw [Predicate.pieces]
    exact h.text hc test negated k

/-- The texts of several predicates. -/
theorem shows_piecesAll (h : L.Covers s good conditional blank) {qs : List (Predicate C)}
    (hqs : ∀ q ∈ qs, q.Whole good conditional blank) :
    ∀ part ∈ Predicate.piecesAll s qs, L.Shows part := by
  intro part hpart
  rw [Predicate.piecesAll_eq_map] at hpart
  obtain ⟨q, hq, rfl⟩ := List.mem_map.1 hpart
  exact h.shows_predicate (hqs q hq)

/-! ## Expressions -/

/-- The text of an expression is made of what the lexicon has. -/
theorem shows_expression (h : L.Covers s good conditional blank) (phrase : ChoicePhrase)
    (hstar : L.ends "*" = true) (hfunction : ∀ f : Aggregate, L.ends f.name = true)
    (hchoice : ∀ {c t f : List Piece}, L.Shows c → L.Shows t → L.Shows f →
      L.Shows (phrase.pieces c t f))
    (hnumeral : ∀ {text}, number text → L.Shows [.numeral text]) {e : Expression C}
    (he : e.Whole good conditional blank number) : L.Shows (e.pieces s phrase) := by
  induction he with
  | everything => exact .ending hstar
  | column hc => exact h.column hc
  | numeral hnumber => exact hnumeral hnumber
  | @aggregate function argument _ ih =>
    have hcall : L.Shows (.fixed "(" :: argument.pieces s phrase ++ [.fixed ")"]) :=
      .fixed (h.connective _ (by decide)) (ih.before h.fluent.closes (h.connective _ (by decide)))
    rw [Expression.pieces]
    exact (Shows.ending (hfunction function)).beside (.fixed h.fluent.opens _) hcall
  | choice hc _ _ iht ihf =>
    rw [Expression.pieces]
    exact hchoice (h.shows_predicate hc) iht ihf

end Covers
end Lexicon
end FilterText
end ResourceQuery

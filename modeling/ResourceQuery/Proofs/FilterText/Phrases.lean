import ResourceQuery.Proofs.FilterText.Meanings
import ResourceQuery.Statement.TextFunctions

set_option autoImplicit false

/-!
# Filter texts: what pieces tell

Pieces are read as signs one after the other, as long as a delimiter stands
between what could run together.  They *tell* a verdict if their signs mean it.

Reading a whole text is reduced to reading its pieces: `Signs` composes wherever
a delimiter is met (`Signs.append`, `Signs.between`).  What a reader has to take
for a word is checked by computation on the characters, once for each target
(`Reader.isFluent`).
-/

namespace ResourceQuery.FilterText

/-! ## The signs of pieces -/

/-- The text of pieces. -/
def chars (sp : Spelling) (pieces : List Piece) : List Char := (Piece.textAll sp pieces).toList

theorem chars_cons (sp : Spelling) (p : Piece) (ps : List Piece) :
    chars sp (p :: ps) = (p.text sp).toList ++ chars sp ps := by
  rw [chars, chars, Piece.textAll, Piece.textAll, List.map_cons, String.join_cons,
    String.toList_append]

theorem chars_append (sp : Spelling) (ps qs : List Piece) :
    chars sp (ps ++ qs) = chars sp ps ++ chars sp qs := by
  induction ps with
  | nil => rfl
  | cons p ps ih => rw [List.cons_append, chars_cons, chars_cons, ih, List.append_assoc]

theorem textAll_append (sp : Spelling) (ps qs : List Piece) :
    Piece.textAll sp (ps ++ qs) = Piece.textAll sp ps ++ Piece.textAll sp qs := by
  apply String.toList_inj.1
  rw [String.toList_append]
  exact chars_append sp ps qs

theorem textAll_cons (sp : Spelling) (p : Piece) (ps : List Piece) :
    Piece.textAll sp (p :: ps) = p.text sp ++ Piece.textAll sp ps := by
  rw [Piece.textAll, Piece.textAll, List.map_cons, String.join_cons]

theorem textAll_singleton (sp : Spelling) (p : Piece) : Piece.textAll sp [p] = p.text sp :=
  String.empty_append

theorem textAll_join (sp : Spelling) (glue : String) : ∀ parts : List (List Piece),
    Piece.textAll sp (Piece.join glue parts) = glue.intercalate (parts.map (Piece.textAll sp))
  | [] => rfl
  | [part] => by rw [List.map_singleton, String.intercalate_singleton]; rfl
  | part :: next :: parts => by
    have hrest := textAll_join sp glue (next :: parts)
    rw [List.map_cons] at hrest
    rw [List.map_cons, List.map_cons, String.intercalate_cons_cons, ← hrest]
    change Piece.textAll sp (part ++ ([.fixed glue] ++ Piece.join glue (next :: parts))) = _
    rw [textAll_append, textAll_append, textAll_singleton, String.append_assoc, Piece.text]

/-- A fixed text that is read as the signs, whatever comes behind it. -/
def Fixed (r : Reader) (text : String) (gs : List Sign) : Prop :=
  r.Closes text.toList gs ∧ gs.all (Sign.isFixed r) = true

instance (r : Reader) (text : String) (gs : List Sign) : Decidable (Fixed r text gs) :=
  inferInstanceAs (Decidable (_ = _ ∧ _ = _))

/-- The text starts with a delimiter. -/
def Parts (r : Reader) (text : String) : Prop :=
  ∃ c cs, text.toList = c :: cs ∧ r.isDelimiter c = true

/-- The text of the pieces starts with a delimiter, or it is empty. -/
def Begins (r : Reader) (sp : Spelling) (pieces : List Piece) : Prop :=
  chars sp pieces = [] ∨ ∃ c cs, chars sp pieces = c :: cs ∧ r.isDelimiter c = true

theorem Begins.nil {r : Reader} {sp : Spelling} : Begins r sp [] := .inl rfl

theorem Begins.fixed {r : Reader} {sp : Spelling} {text : String} (h : Parts r text)
    (ps : List Piece) : Begins r sp (.fixed text :: ps) := by
  obtain ⟨c, cs, htext, hc⟩ := h
  refine .inr ⟨c, cs ++ chars sp ps, ?_, hc⟩
  rw [chars_cons, Piece.text, htext, List.cons_append]

theorem Begins.append {r : Reader} {sp : Spelling} {ps qs : List Piece} (h : Begins r sp ps)
    (h' : Begins r sp qs) : Begins r sp (ps ++ qs) := by
  unfold Begins at *
  rw [chars_append]
  rcases h with hnil | ⟨c, cs, hchars, hc⟩
  · rw [hnil]
    exact h'
  · exact .inr ⟨c, cs ++ chars sp qs, by rw [hchars, List.cons_append], hc⟩

theorem Begins.clause {r : Reader} {sp : Spelling} {opening : String} (h : Parts r opening)
    (glue : String) (parts : List (List Piece)) : Begins r sp (Piece.clause opening glue parts) := by
  unfold Piece.clause
  split
  · exact .nil
  · exact .fixed h _

/-- The pieces are read as the signs, if a delimiter or nothing comes behind them. -/
structure Signs (r : Reader) (sp : Spelling) (pieces : List Piece) (ss : List Sign) : Prop where
  spells : r.Spells (chars sp pieces) (ss.map (Sign.spelled sp.marker))
  plain : ∀ s ∈ ss, s.isFixed r = true ∨ ∃ k, s = .marker k

section Signs

variable {r : Reader} {sp : Spelling} {text : String} {ps qs : List Piece} {gs ss tt : List Sign}

theorem Fixed.isFixed (h : Fixed r text gs) : ∀ s ∈ gs, s.isFixed r = true :=
  List.all_eq_true.1 h.2

/-- A fixed text in two parts. -/
theorem Fixed.append {text' whole : String} {hs : List Sign} (h : Fixed r text gs)
    (h' : Fixed r text' hs) (hwhole : whole.toList = text.toList ++ text'.toList) :
    Fixed r whole (gs ++ hs) := by
  refine ⟨?_, ?_⟩
  · rw [hwhole]
    exact h.1.append_closes h'.1
  · rw [List.all_append, h.2, h'.2]
    rfl

theorem Signs.nil : Signs r sp [] [] :=
  ⟨⟨[], .rest, rfl⟩, fun _ hs => absurd hs List.not_mem_nil⟩

/-- A piece of letters. -/
theorem Signs.word {piece : Piece} (hne : (piece.text sp).toList ≠ [])
    (h : ∀ c ∈ (piece.text sp).toList, r.isLetter c = true)
    (hfixed : (Sign.word (piece.text sp)).isFixed r = true) :
    Signs r sp [piece] [.word (piece.text sp)] where
  spells := by
    have hword := Reader.spells_word hne h
    rw [String.ofList_toList] at hword
    rw [chars_cons]
    exact (List.append_nil _).symm ▸ hword
  plain s hs := .inl (List.mem_singleton.1 hs ▸ hfixed)

/-- A marker of letters. -/
theorem Signs.marker {k : Nat} (hne : (sp.marker k).toList ≠ [])
    (h : ∀ c ∈ (sp.marker k).toList, r.isLetter c = true) :
    Signs r sp [.marker k] [.marker k] where
  spells := by
    have hword := Reader.spells_word hne h
    rw [String.ofList_toList] at hword
    rw [chars_cons]
    exact (List.append_nil _).symm ▸ hword
  plain s hs := .inr ⟨k, List.mem_singleton.1 hs⟩

/-- A piece that is closed before others. -/
theorem Signs.closed {piece : Piece} (h : r.Closes (piece.text sp).toList gs)
    (hgs : ∀ s ∈ gs, s.isFixed r = true) (h' : Signs r sp qs tt) :
    Signs r sp (piece :: qs) (gs ++ tt) where
  spells := by
    rw [chars_cons, List.map_append, map_spelled_of_fixed hgs]
    exact h.append h'.spells
  plain s hs := by
    rcases List.mem_append.1 hs with hs | hs
    · exact .inl (hgs s hs)
    · exact h'.plain s hs

/-- A fixed text before pieces. -/
theorem Signs.fixed (h : Fixed r text gs) (h' : Signs r sp qs tt) :
    Signs r sp (.fixed text :: qs) (gs ++ tt) :=
  .closed h.1 h.isFixed h'

/-- Pieces before others that start with a delimiter, or with nothing. -/
theorem Signs.beside (h : Signs r sp ps ss) (hqs : Begins r sp qs) (h' : Signs r sp qs tt) :
    Signs r sp (ps ++ qs) (ss ++ tt) where
  spells := by
    rw [chars_append, List.map_append]
    have hspells := h'.spells
    rcases hqs with hnil | ⟨c, cs, hchars, hc⟩
    · rw [hnil] at hspells ⊢
      have hempty : tt.map (Sign.spelled sp.marker) = [] :=
        (Option.some.inj (hspells.lex_eq.symm.trans rfl))
      rw [hempty, List.append_nil, List.append_nil]
      exact h.spells
    · rw [hchars] at hspells ⊢
      exact h.spells.append hc hspells
  plain s hs := by
    rcases List.mem_append.1 hs with hs | hs
    · exact h.plain s hs
    · exact h'.plain s hs

/-- Pieces before others that start with a delimiter. -/
theorem Signs.append (h : Signs r sp ps ss) (hparts : Parts r text)
    (h' : Signs r sp (.fixed text :: qs) tt) : Signs r sp (ps ++ .fixed text :: qs) (ss ++ tt) :=
  h.beside (.fixed hparts qs) h'

/-- Pieces, a fixed text and other pieces. -/
theorem Signs.between (h : Signs r sp ps ss) (hparts : Parts r text) (hfixed : Fixed r text gs)
    (h' : Signs r sp qs tt) : Signs r sp (ps ++ .fixed text :: qs) (ss ++ (gs ++ tt)) :=
  h.append hparts (.fixed hfixed h')

/-- Pieces and a fixed text behind them. -/
theorem Signs.before (h : Signs r sp ps ss) (hparts : Parts r text) (hfixed : Fixed r text gs) :
    Signs r sp (ps ++ [.fixed text]) (ss ++ gs) := by
  have hwhole := h.between hparts hfixed Signs.nil
  rwa [List.append_nil] at hwhole

end Signs

/-- Pieces and a fixed text behind them that does not have to be closed. -/
theorem Signs.ending {r : Reader} {sp : Spelling} {text : String} {ps : List Piece}
    {gs ss : List Sign} (h : Signs r sp ps ss) (hparts : Parts r text)
    (hspells : r.Spells text.toList gs) (hfixed : gs.all (Sign.isFixed r) = true) :
    Signs r sp (ps ++ [.fixed text]) (ss ++ gs) := by
  have hgs := List.all_eq_true.1 hfixed
  refine h.append hparts ⟨?_, fun s hs => .inl (hgs s hs)⟩
  rw [chars_cons, map_spelled_of_fixed hgs]
  have hnil : chars sp [] = [] := rfl
  rw [hnil, List.append_nil]
  exact hspells

/-- A text that starts with a mark. -/
theorem parts_mark {r : Reader} {text : String} {c : Char} (h : text.toList.head? = some c)
    (hc : r.isDelimiter c = true) : Parts r text := by
  obtain ⟨cs, hcs⟩ := List.head?_eq_some_iff.1 h
  exact ⟨c, cs, hcs, hc⟩

/-- A text that starts with a blank. -/
theorem parts_blank {r : Reader} {text : String} (h : text.toList.head? = some ' ') :
    Parts r text :=
  parts_mark h rfl

/-! ## Verdicts -/

/-- The pieces have these markers, and they tell the verdict at the level. -/
def Tells (r : Reader) (sp : Spelling) (lvl : Level) (pieces : List Piece) (ks : List Nat)
    (verdict : Verdict) : Prop :=
  ∃ ss, Signs r sp pieces ss ∧ markers ss = ks ∧ Means lvl ss verdict

/-- The reader takes the words between conditions, the marks around them and the
digits of markers for what they are. -/
structure Fluent (r : Reader) : Prop where
  conjunction : Fixed r " AND " [.word "AND"]
  disjunction : Fixed r " OR " [.word "OR"]
  denial : Fixed r "NOT " [.word "NOT"]
  negation : Fixed r "NOT (" [.word "NOT", .mark '(']
  opening : Fixed r "(" [.mark '(']
  opens : Parts r "("
  closing : Fixed r ")" [.mark ')']
  closes : Parts r ")"
  comma : Fixed r ", " [.mark ',']
  parts : Parts r ", "
  within : Fixed r " IN (" [.word "IN", .mark '(']
  without : Fixed r " NOT IN (" [.word "NOT", .word "IN", .mark '(']
  sign : ∀ (op : Comparison) (notEqual : String), notEqual = "<>" ∨ notEqual = "!=" →
    Fixed r s!" {op.sign notEqual} " [.word (op.sign notEqual)]
  digits : r.TakesDigits

/-- The words between conditions, and those between a column and a value. -/
def commonWords : List String := ["AND", "OR", "NOT", "IN", "=", "<>", "!=", "<", "<=", ">", ">="]

/-- The common words are made of letters and no markers, parentheses and commas
stand alone, and digits are letters. -/
def Reader.isFluent (r : Reader) : Bool :=
  commonWords.all (fun w => !w.toList.isEmpty && w.toList.all r.isLetter && !r.isMarker w) &&
    ['(', ')', ','].all (fun c => (r.closing c).isNone && r.alone.contains c) &&
    "0123456789".toList.all r.isLetter

/-- All that a reader has to be told of the common words is what their characters are. -/
theorem fluent_of_isFluent {r : Reader} (h : r.isFluent = true) : Fluent r := by
  rw [Reader.isFluent, Bool.and_eq_true, Bool.and_eq_true] at h
  obtain ⟨⟨hwords, hmarks⟩, hdigits⟩ := h
  have hword : ∀ w ∈ commonWords, Fixed r (w ++ " ") [.word w] := by
    intro w hw
    have hplain := List.all_eq_true.1 hwords w hw
    simp only [Bool.and_eq_true, Bool.not_eq_true', List.isEmpty_eq_false_iff] at hplain
    refine ⟨?_, ?_⟩
    · rw [String.toList_append]
      exact Reader.closes_word hplain.1.1 hplain.1.2
    · rw [List.all_cons, Sign.isFixed, hplain.2]
      rfl
  have hmark : ∀ c ∈ ['(', ')', ','], c ≠ ' ' → ∀ {text : String}, text.toList = [c] →
      Fixed r text [.mark c] ∧ r.isDelimiter c = true := by
    intro c hc hblank text htext
    obtain ⟨hclosing, halone⟩ := Bool.and_eq_true_iff.1 (List.all_eq_true.1 hmarks c hc)
    refine ⟨⟨htext ▸ Reader.closes_mark hblank (Option.isNone_iff_eq_none.1 hclosing) halone, rfl⟩, ?_⟩
    rw [Reader.isDelimiter, halone, Bool.or_true]
  have hblank : Fixed r " " [] := ⟨Reader.closes_blank, rfl⟩
  have hspaced : ∀ w ∈ commonWords, Fixed r (" " ++ w ++ " ") [.word w] := by
    intro w hw
    refine hblank.append (hword w hw) ?_
    rw [String.append_assoc, String.toList_append]
  have hnot : Fixed r "NOT " [.word "NOT"] := hword "NOT" (by decide)
  have hin : Fixed r "IN " [.word "IN"] := hword "IN" (by decide)
  obtain ⟨hopening, hopens⟩ := hmark '(' (by decide) (by decide) (rfl : "(".toList = ['('])
  obtain ⟨hclosing, hcloses⟩ := hmark ')' (by decide) (by decide) (rfl : ")".toList = [')'])
  obtain ⟨hcomma, hparts⟩ := hmark ',' (by decide) (by decide) (rfl : ",".toList = [','])
  exact {
    conjunction := hspaced "AND" (by decide)
    disjunction := hspaced "OR" (by decide)
    denial := hnot
    negation := hnot.append hopening rfl
    opening := hopening
    opens := ⟨'(', [], rfl, hopens⟩
    closing := hclosing
    closes := ⟨')', [], rfl, hcloses⟩
    comma := hcomma.append hblank rfl
    parts := ⟨',', [' '], rfl, hparts⟩
    within := hblank.append (hin.append hopening (rfl : "IN (".toList = _)) rfl
    without := hblank.append
      (hnot.append (hin.append hopening (rfl : "IN (".toList = _)) (rfl : "NOT IN (".toList = _)) rfl
    sign := fun op notEqual hunequal => by
      refine hspaced _ ?_
      rcases hunequal with rfl | rfl <;> cases op <;> decide
    digits := hdigits }

/-- The word is made of letters, and it starts neither like a marker nor like a
word with a meaning of its own. -/
def Reader.isPlain (r : Reader) (w : String) : Bool :=
  w.toList.all r.isLetter &&
    w.toList.head?.any fun c => !"AON<!a".toList.contains c && !r.leads.contains c

/-- A plain word stands in an atom as it is. -/
theorem steady_of_isPlain {r : Reader} {w : String} (h : r.isPlain w = true) :
    Steady r [.word w] := by
  have hhead := (Bool.and_eq_true_iff.1 h).2
  cases hfirst : w.toList.head? with
  | none =>
    rw [hfirst] at hhead
    cases hhead
  | some first =>
    rw [hfirst, Option.any_some, Bool.and_eq_true, Bool.not_eq_true', Bool.not_eq_true'] at hhead
    exact .word hfirst hhead.1 hhead.2

/-- A plain word before its arguments. -/
theorem Fluent.call {r : Reader} (hr : Fluent r) {w : String} (h : r.isPlain w = true) :
    Fixed r (w ++ "(") [.word w, .mark '('] := by
  obtain ⟨hletters, hhead⟩ := Bool.and_eq_true_iff.1 h
  have hne : w.toList ≠ [] := by
    intro hnil
    rw [hnil] at hhead
    cases hhead
  obtain ⟨_, _, hopening, hdelimiter⟩ := hr.opens
  obtain ⟨rfl, rfl⟩ := List.cons.inj (hopening : ['('] = _)
  have hword := Reader.spells_word hne (List.all_eq_true.1 hletters)
  rw [String.ofList_toList] at hword
  refine ⟨?_, ?_⟩
  · rw [String.toList_append]
    exact hword.append_closes hdelimiter hr.opening.1
  · have hfixed := (steady_of_isPlain h).fixed _ (List.mem_singleton_self _)
    rw [List.all_cons, hfixed, Bool.true_and]
    exact hr.opening.2

namespace Tells

variable {r : Reader} {sp : Spelling} {lvl : Level} {ps qs os : List Piece} {ks ks' ks'' : List Nat}
  {v v' v'' : Verdict}

theorem conjunct (h : Tells r sp .negation ps ks v) : Tells r sp .conjunction ps ks v := by
  obtain ⟨ss, hsigns, hks, hmeans⟩ := h
  exact ⟨ss, hsigns, hks, hmeans.conjunct⟩

theorem disjunct (h : Tells r sp .conjunction ps ks v) : Tells r sp .disjunction ps ks v := by
  obtain ⟨ss, hsigns, hks, hmeans⟩ := h
  exact ⟨ss, hsigns, hks, hmeans.disjunct⟩

theorem both (hr : Fluent r) (h : Tells r sp .negation ps ks v)
    (h' : Tells r sp .conjunction qs ks' v') :
    Tells r sp .conjunction (ps ++ .fixed " AND " :: qs) (ks ++ ks')
      fun values ρ => v values ρ && v' values ρ := by
  obtain ⟨ss, hsigns, rfl, hmeans⟩ := h
  obtain ⟨tt, hsigns', rfl, hmeans'⟩ := h'
  exact ⟨_, hsigns.between (parts_blank rfl) hr.conjunction hsigns', markers_append ss _,
    hmeans.both hmeans'⟩

theorem either (hr : Fluent r) (h : Tells r sp .conjunction ps ks v)
    (h' : Tells r sp .disjunction qs ks' v') :
    Tells r sp .disjunction (ps ++ .fixed " OR " :: qs) (ks ++ ks')
      fun values ρ => v values ρ || v' values ρ := by
  obtain ⟨ss, hsigns, rfl, hmeans⟩ := h
  obtain ⟨tt, hsigns', rfl, hmeans'⟩ := h'
  exact ⟨_, hsigns.between (parts_blank rfl) hr.disjunction hsigns', markers_append ss _,
    hmeans.either hmeans'⟩

theorem enclosed (hr : Fluent r) (h : Tells r sp .disjunction ps ks v) :
    Tells r sp .negation (Predicate.enclosed ps) ks v := by
  obtain ⟨ss, hsigns, rfl, hmeans⟩ := h
  exact ⟨_, .fixed hr.opening (hsigns.before hr.closes hr.closing), markers_enclosed ss,
    hmeans.enclosed⟩

theorem not (hr : Fluent r) (h : Tells r sp .disjunction ps ks v) :
    Tells r sp .negation (.fixed "NOT (" :: ps ++ [.fixed ")"]) ks
      fun values ρ => !v values ρ := by
  obtain ⟨ss, hsigns, rfl, hmeans⟩ := h
  exact ⟨_, .fixed hr.negation (hsigns.before hr.closes hr.closing), markers_enclosed ss,
    hmeans.enclosed.not⟩

theorem choice (hr : Fluent r) (hask : Fixed r " ? " [.mark '?'])
    (hcolon : Fixed r " : " [.mark ':']) (h : Tells r sp .disjunction ps ks v)
    (h' : Tells r sp .disjunction qs ks' v') (h'' : Tells r sp .disjunction os ks'' v'') :
    Tells r sp .negation
      (Predicate.enclosed (ps ++ .fixed " ? " :: qs ++ .fixed " : " :: os)) (ks ++ (ks' ++ ks''))
      fun values ρ => if v values ρ then v' values ρ else v'' values ρ := by
  obtain ⟨ss, hsigns, rfl, hmeans⟩ := h
  obtain ⟨tt, hsigns', rfl, hmeans'⟩ := h'
  obtain ⟨uu, hsigns'', rfl, hmeans''⟩ := h''
  have hinside : Signs r sp (ps ++ .fixed " ? " :: qs ++ .fixed " : " :: os)
      (ss ++ .mark '?' :: (tt ++ .mark ':' :: uu)) := by
    rw [List.append_assoc]
    exact hsigns.between (parts_blank rfl) hask
      (hsigns'.between (parts_blank rfl) hcolon hsigns'')
  exact ⟨_, .fixed hr.opening (hinside.before hr.closes hr.closing),
    (markers_enclosed _).trans (by simp), hmeans.choice hmeans' hmeans''⟩

/-- A function of a column and a bound value, which may be denied. -/
theorem function (hr : Fluent r) (f : TextFunctions) {test : TextTest} {word : String}
    (hword : r.isPlain word = true) (hopening : f.opening test = word ++ "(")
    {column : List Piece} {c : List Sign} (hcolumn : Signs r sp column c) (hc : Steady r c) {k : Nat}
    (hk : Signs r sp [.marker k] [.marker k]) (negated : Bool) :
    Tells r sp .negation (f.pieces test negated column k) [k] fun values ρ =>
      ρ (.word word :: FilterText.enclosed (c ++ [.mark ',', .value (values.at k)])) != negated := by
  have hcall : Signs r sp
      (.fixed (f.opening test) :: (column ++ [.fixed ", ", .marker k, .fixed ")"]))
      (.word word :: FilterText.enclosed (c ++ [.mark ',', .marker k])) := by
    rw [hopening]
    have hwhole := Signs.fixed (hr.call hword) ((hcolumn.between hr.parts hr.comma hk).before hr.closes
      hr.closing)
    simpa only [FilterText.enclosed, List.append_assoc, List.cons_append, List.nil_append] using hwhole
  have hmarkers : markers (.word word :: FilterText.enclosed (c ++ [.mark ',', .marker k])) = [k] := by
    simp [markers_of_fixed hc.fixed]
  have hmeans := (steady_of_isPlain hword).means_argument hc k
  cases negated with
  | true =>
    refine ⟨_, Signs.fixed hr.denial hcall, ?_, hmeans.not.congr fun values ρ => ?_⟩
    · simpa using hmarkers
    · exact (Bool.bne_true _).symm
  | false =>
    have hnothing : Fixed r "" [] := ⟨rfl, rfl⟩
    refine ⟨_, Signs.fixed hnothing hcall, ?_, hmeans.congr fun values ρ => ?_⟩
    · simpa using hmarkers
    · exact (Bool.bne_false _).symm

/-- Several verdicts that hold together. -/
theorem join_and {α : Type} (hr : Fluent r) {f : α → List Piece} {ks : α → List Nat}
    {v : α → Verdict} {xs : List α} (hne : xs ≠ [])
    (h : ∀ x ∈ xs, Tells r sp .negation (f x) (ks x) (v x)) :
    Tells r sp .conjunction (Piece.join " AND " (xs.map f)) (xs.flatMap ks)
      fun values ρ => (xs.map fun x => v x values ρ).all id := by
  induction xs with
  | nil => exact absurd rfl hne
  | cons x xs ih =>
    have hx := h x List.mem_cons_self
    cases xs with
    | nil => simpa [Piece.join] using hx.conjunct
    | cons y ys =>
      have hrest := ih (List.cons_ne_nil y ys) fun z hz => h z (List.mem_cons_of_mem x hz)
      exact hx.both hr hrest

/-- Several verdicts one of which holds. -/
theorem join_or {α : Type} (hr : Fluent r) {f : α → List Piece} {ks : α → List Nat}
    {v : α → Verdict} {xs : List α} (hne : xs ≠ [])
    (h : ∀ x ∈ xs, Tells r sp .negation (f x) (ks x) (v x)) :
    Tells r sp .disjunction (Piece.join " OR " (xs.map f)) (xs.flatMap ks)
      fun values ρ => (xs.map fun x => v x values ρ).any id := by
  induction xs with
  | nil => exact absurd rfl hne
  | cons x xs ih =>
    have hx := (h x List.mem_cons_self).conjunct
    cases xs with
    | nil => simpa [Piece.join] using hx.disjunct
    | cons y ys =>
      have hrest := ih (List.cons_ne_nil y ys) fun z hz => h z (List.mem_cons_of_mem x hz)
      exact hx.either hr hrest

/-- What is told at a level is the one reading of the text, once its markers are numbered. -/
theorem readsAs_iff (hmarker : ∀ k, r.isMarker (sp.marker k) = true) {values : Bindings}
    {n len : Nat} (h : Tells r sp .disjunction ps (List.range' (n + 1) len) v)
    (hlen : n + len ≤ values.length) :
    ∃ φ, (∀ ψ, r.ReadsAs sp.marker values n (Piece.textAll sp ps) ψ ↔ ψ = φ) ∧
      ∀ ρ, φ.eval ρ = v values ρ := by
  obtain ⟨ss, hsigns, hks, hmeans⟩ := h
  obtain ⟨φ, hφ, heval⟩ := hmeans values
  have hread : (r.lex (Piece.textAll sp ps).toList).bind (r.number sp.marker values n) =
      some (ss.map (Sign.ground values)) := by
    have hlex : r.lex (Piece.textAll sp ps).toList = some (ss.map (Sign.spelled sp.marker)) :=
      hsigns.spells.lex_eq
    rw [hlex, Option.bind_some, number_spelled hmarker hsigns.plain hks hlen]
  refine ⟨φ, fun ψ => ⟨?_, ?_⟩, heval⟩
  · rintro ⟨signs, hsigns, hψ⟩
    obtain rfl := Option.some.inj (hread.symm.trans hsigns)
    exact hψ.unique hφ
  · rintro rfl
    exact ⟨_, hread, hφ⟩

end Tells
end ResourceQuery.FilterText

import ResourceQuery.Proofs.Number.Numeral
import ResourceQuery.Proofs.Statement.Pieces
import ResourceQuery.Sql.Statement

set_option autoImplicit false

/-!
# SQL: reading the markers of a statement

A reader of statements that knows nothing of how they are made.  It goes through
the text from left to right, passes over quoted names and string literals, and
lists the markers that it meets.  Pieces of a statement are *legible* when the
reader finds in their text just the markers among them, whatever text comes
after, provided that this does not go on with the last word of theirs.

The property passes from parts to the whole by `Legible.append`: a part may be
followed by anything that is `Guarded`, that is, by what cannot be taken for
more of it.  Fixed texts are quiet by computation, so most proofs about
statements only name them.
-/

namespace ResourceQuery.Sql

open Number (isDigit isDigit_of_mem_toString)

/-! ## The reader -/

/-- What is left of a text behind the closing quote; a doubled one does not close. -/
def skipQuoted (close : Char) : List Char → List Char
  | [] => []
  | c :: cs =>
    if c = close then
      match cs with
      | next :: rest => if next = close then skipQuoted close rest else next :: rest
      | [] => []
    else skipQuoted close cs

theorem length_skipQuoted_le (close : Char) (cs : List Char) :
    (skipQuoted close cs).length ≤ cs.length := by
  fun_induction skipQuoted close cs with
  | case1 => exact Nat.le_refl _
  | case2 rest ih => simp only [List.length_cons]; omega
  | case3 c next rest => simp only [List.length_cons]; omega
  | case4 => exact Nat.zero_le _
  | case5 c cs hc ih => simp only [List.length_cons]; omega

/-- A sign and the digits after it. -/
def numbered (sign cs : List Char) : List Char × List Char :=
  (sign ++ cs.takeWhile isDigit, cs.dropWhile isDigit)

/-- The marker that a text starts with, and what is left: a question mark with
or without a number, or one of the other signs with a number. -/
def marker? : List Char → Option (List Char × List Char)
  | '?' :: cs => some (numbered ['?'] cs)
  | '$' :: cs => if cs.head?.any isDigit then some (numbered ['$'] cs) else none
  | '@' :: 'p' :: cs => if cs.head?.any isDigit then some (numbered ['@', 'p'] cs) else none
  | _ => none

theorem length_numbered_le (sign cs : List Char) : (numbered sign cs).2.length ≤ cs.length :=
  (List.dropWhile_sublist isDigit).length_le

theorem length_marker?_lt {cs m rest : List Char} (h : marker? cs = some (m, rest)) :
    rest.length < cs.length := by
  have hnumbered : ∀ {sign cs}, numbered sign cs = (m, rest) → rest.length ≤ cs.length := by
    intro sign cs heq
    have hle := length_numbered_le sign cs
    rwa [heq] at hle
  unfold marker? at h
  split at h
  · have hle := hnumbered (Option.some.inj h)
    simp only [List.length_cons]
    omega
  · split at h
    · have hle := hnumbered (Option.some.inj h)
      simp only [List.length_cons]
      omega
    · cases h
  · split at h
    · have hle := hnumbered (Option.some.inj h)
      simp only [List.length_cons]
      omega
    · cases h
  · cases h

/-- The markers in a text, from left to right. -/
def readMarkers (d : Dialect) : List Char → List String
  | [] => []
  | c :: cs =>
    if c = d.openQuote then readMarkers d (skipQuoted d.closeQuote cs)
    else if c = '\'' then readMarkers d (skipQuoted '\'' cs)
    else match _hmarker : marker? (c :: cs) with
      | some (m, rest) => String.ofList m :: readMarkers d rest
      | none => readMarkers d cs
termination_by cs => cs.length
decreasing_by
  · have hle := length_skipQuoted_le d.closeQuote cs
    simp only [List.length_cons]
    omega
  · have hle := length_skipQuoted_le '\'' cs
    simp only [List.length_cons]
    omega
  · exact length_marker?_lt _hmarker
  · simp

/-- The markers that are met in a statement. -/
def Dialect.markersIn (d : Dialect) (text : String) : List String := readMarkers d text.toList

/-! ## Characters -/

/-- The characters that start a quoted name, a literal or a marker in some dialect. -/
def starters : List Char := ['\'', '"', '\x60', '[', '?', '$', '@']

/-- The character starts nothing. -/
def isInert (c : Char) : Bool := !starters.contains c

/-- The character neither starts nor goes on or ends anything. -/
def isQuiet (c : Char) : Bool := isInert c && !isDigit c && c != ']'

/-- The text does not go on with a name, a literal or a marker that ends before it. -/
def Calm (d : Dialect) : List Char → Prop
  | [] => True
  | c :: _ => isDigit c = false ∧ c ≠ d.closeQuote ∧ c ≠ '\''

theorem isInert_iff {c : Char} : isInert c = true ↔ c ∉ starters := by
  simp [isInert]

theorem isInert_ne {c : Char} (h : isInert c = true) :
    c ≠ '\'' ∧ c ≠ '"' ∧ c ≠ '\x60' ∧ c ≠ '[' ∧ c ≠ '?' ∧ c ≠ '$' ∧ c ≠ '@' := by
  simpa [starters] using isInert_iff.1 h

/-- A test that no starter passes is passed by inert characters only. -/
theorem isInert_of_test {test : Char → Bool} (htest : starters.any test = false) {c : Char}
    (h : test c = true) : isInert c = true := by
  refine isInert_iff.2 fun hc => ?_
  have hstarter := List.any_eq_false.1 htest c hc
  exact hstarter h

theorem isInert_of_isDigit {c : Char} (h : isDigit c = true) : isInert c = true :=
  isInert_of_test (by decide) h

theorem isInert_of_isQuiet {c : Char} (h : isQuiet c = true) : isInert c = true := by
  simp only [isQuiet, Bool.and_eq_true] at h
  exact h.1.1

theorem calm_of_isQuiet {c : Char} (h : isQuiet c = true) (d : Dialect) (cs : List Char) :
    Calm d (c :: cs) := by
  have hinert := isInert_ne (isInert_of_isQuiet h)
  simp only [isQuiet, Bool.and_eq_true, Bool.not_eq_true', bne_iff_ne] at h
  refine ⟨h.1.2, ?_, hinert.1⟩
  cases d with
  | mysql => exact hinert.2.2.1
  | sqlserver => exact h.2
  | postgres => exact hinert.2.1
  | sqlite => exact hinert.2.1
  | h2 => exact hinert.2.1

theorem marker?_of_isInert {c : Char} (h : isInert c = true) (cs : List Char) :
    marker? (c :: cs) = none := by
  obtain ⟨_, _, _, _, hquestion, hdollar, hat⟩ := isInert_ne h
  unfold marker?
  split
  · next heq => exact absurd (List.cons.inj heq).1 hquestion
  · next heq => exact absurd (List.cons.inj heq).1 hdollar
  · next heq => exact absurd (List.cons.inj heq).1 hat
  · rfl

/-- The reader passes over an inert character. -/
theorem readMarkers_inert (d : Dialect) {c : Char} (h : isInert c = true) (cs : List Char) :
    readMarkers d (c :: cs) = readMarkers d cs := by
  obtain ⟨hquote, hdouble, hback, hbracket, _⟩ := isInert_ne h
  have hopen : c ≠ d.openQuote := by cases d <;> assumption
  rw [readMarkers, if_neg hopen, if_neg hquote]
  split
  · next m rest hmarker => rw [marker?_of_isInert h] at hmarker; cases hmarker
  · rfl

theorem readMarkers_inert_append (d : Dialect) {cs : List Char}
    (h : ∀ c ∈ cs, isInert c = true) (rest : List Char) :
    readMarkers d (cs ++ rest) = readMarkers d rest := by
  induction cs with
  | nil => rfl
  | cons c cs ih =>
    rw [List.cons_append, readMarkers_inert d (h c List.mem_cons_self),
      ih fun c' hc' => h c' (List.mem_cons_of_mem c hc')]

/-! ## Names -/

/-- A closing quote closes where no other follows. -/
theorem skipQuoted_close {close : Char} {rest : List Char} (h : rest.head? ≠ some close) :
    skipQuoted close (close :: rest) = rest := by
  cases rest with
  | nil => simp [skipQuoted]
  | cons c cs =>
    have hc : c ≠ close := by simpa using h
    simp [skipQuoted, hc]

/-- The reader leaves a quoted stretch at its end, doubled quotes notwithstanding. -/
theorem skipQuoted_doubled {close : Char} {rest : List Char} (h : rest.head? ≠ some close)
    (cs : List Char) :
    skipQuoted close (cs.flatMap (fun c => if c = close then [c, c] else [c]) ++ close :: rest) =
      rest := by
  induction cs with
  | nil => exact skipQuoted_close h
  | cons c cs ih =>
    rw [List.flatMap_cons, List.append_assoc]
    by_cases hc : c = close
    · subst hc
      simp only [if_true, List.cons_append, List.nil_append]
      rw [skipQuoted]
      simpa using ih
    · rw [if_neg hc, List.singleton_append, skipQuoted.eq_def]
      simpa [hc] using ih

theorem doubled_eq_self {close : Char} {cs : List Char} (h : close ∉ cs) :
    cs.flatMap (fun c => if c = close then [c, c] else [c]) = cs := by
  induction cs with
  | nil => rfl
  | cons c cs ih =>
    rw [List.mem_cons, not_or] at h
    rw [List.flatMap_cons, if_neg (Ne.symm h.1), ih h.2, List.singleton_append]

theorem Calm.head_ne_close {d : Dialect} {rest : List Char} (h : Calm d rest) :
    rest.head? ≠ some d.closeQuote := by
  cases rest with
  | nil => simp
  | cons c cs => simpa using h.2.1

/-- The reader passes over a quoted name. -/
theorem readMarkers_name (d : Dialect) (name : String) {rest : List Char} (h : Calm d rest) :
    readMarkers d ((d.quote name).toList ++ rest) = readMarkers d rest := by
  rw [Dialect.quote, String.toList_ofList, Dialect.quoteChars, List.cons_append, List.cons_append,
    List.append_assoc, List.singleton_append, readMarkers, if_pos rfl,
    skipQuoted_doubled h.head_ne_close]

/-! ## Markers -/

theorem head_digits_append (n : Nat) (rest : List Char) :
    ((toString n).toList ++ rest).head?.any isDigit = true := by
  cases hdigits : (toString n).toList with
  | nil => exact absurd hdigits (by simp)
  | cons c cs =>
    have hc : isDigit c = true := isDigit_of_mem_toString (by rw [hdigits]; exact List.mem_cons_self)
    simpa using hc

/-- The number of a marker ends where the text after it is calm. -/
theorem numbered_append {d : Dialect} {rest : List Char} (h : Calm d rest)
    (sign digits : List Char) (hdigits : ∀ c ∈ digits, isDigit c = true) :
    numbered sign (digits ++ rest) = (sign ++ digits, rest) := by
  unfold numbered
  rw [List.takeWhile_append_of_pos hdigits, List.dropWhile_append_of_pos hdigits]
  cases rest with
  | nil => simp
  | cons c cs => simp [h.1]

/-- The reader lists a text that it takes for a marker. -/
theorem readMarkers_of_marker? (d : Dialect) {text : String} {rest : List Char} (c : Char)
    (cs : List Char) (htext : text.toList = c :: cs) (hopen : c ≠ d.openQuote) (hquote : c ≠ '\'')
    (h : marker? (c :: (cs ++ rest)) = some (c :: cs, rest)) :
    readMarkers d (text.toList ++ rest) = text :: readMarkers d rest := by
  rw [htext, List.cons_append, readMarkers, if_neg hopen, if_neg hquote]
  split
  · next m' rest' hmarker =>
    rw [h] at hmarker
    cases hmarker
    rw [← htext, String.ofList_toList]
  · next hmarker => rw [h] at hmarker; cases hmarker

/-- The reader meets a marker. -/
theorem readMarkers_marker (d : Dialect) (style : MarkerStyle) (index : Nat) {rest : List Char}
    (h : Calm d rest) :
    readMarkers d ((d.marker style index).toList ++ rest) =
      d.marker style index :: readMarkers d rest := by
  have hdigits : ∀ c ∈ (toString index).toList, isDigit c = true :=
    fun c hc => isDigit_of_mem_toString hc
  have hhead := head_digits_append index rest
  have hplain : readMarkers d ("?".toList ++ rest) = "?" :: readMarkers d rest := by
    have hnumbered := numbered_append h ['?'] [] (by simp)
    exact readMarkers_of_marker? d '?' [] rfl (by cases d <;> decide) (by decide)
      (congrArg some hnumbered)
  cases style with
  | positional => exact hplain
  | numbered =>
    cases d with
    | mysql => exact hplain
    | h2 => exact hplain
    | postgres =>
      have hnumbered := numbered_append h ['$'] _ hdigits
      refine readMarkers_of_marker? _ '$' (toString index).toList ?_ (by decide) (by decide) ?_
      · show ("$" ++ toString index).toList = _
        simp
      · rw [marker?, if_pos hhead, hnumbered]
        rfl
    | sqlite =>
      have hnumbered := numbered_append h ['?'] _ hdigits
      refine readMarkers_of_marker? _ '?' (toString index).toList ?_ (by decide) (by decide) ?_
      · show ("?" ++ toString index).toList = _
        simp
      · rw [marker?, hnumbered]
        rfl
    | sqlserver =>
      have hnumbered := numbered_append h ['@', 'p'] _ hdigits
      refine readMarkers_of_marker? _ '@' ('p' :: (toString index).toList) ?_ (by decide)
        (by decide) ?_
      · show ("@p" ++ toString index).toList = _
        simp
      · rw [List.cons_append, marker?, if_pos hhead, hnumbered]
        rfl

/-! ## Legible pieces -/

/-- The characters of pieces spelled out. -/
def chars (d : Dialect) (style : MarkerStyle) (pieces : List Piece) : List Char :=
  (Piece.textAll (d.spelling style) pieces).toList

/-- The reader finds the markers among the pieces in their text. -/
def Legible (d : Dialect) (style : MarkerStyle) (pieces : List Piece) : Prop :=
  ∀ rest, Calm d rest → readMarkers d (chars d style pieces ++ rest) =
    (Piece.markers pieces).map (d.marker style) ++ readMarkers d rest

/-- The text of the pieces does not go on with what ends before it. -/
def Guarded (d : Dialect) (style : MarkerStyle) (pieces : List Piece) : Prop :=
  ∀ rest, Calm d rest → Calm d (chars d style pieces ++ rest)

/-- A fixed text that means nothing to the reader. -/
def IsQuiet (text : String) : Prop := text ≠ "" ∧ text.toList.all isQuiet = true

instance (text : String) : Decidable (IsQuiet text) :=
  inferInstanceAs (Decidable (_ ∧ _))

section Legible

variable {d : Dialect} {style : MarkerStyle} {ps qs : List Piece}

theorem chars_nil : chars d style [] = [] := rfl

theorem chars_cons (p : Piece) (ps : List Piece) :
    chars d style (p :: ps) = (p.text (d.spelling style)).toList ++ chars d style ps := by
  rw [chars, chars, Piece.textAll, Piece.textAll, List.map_cons, String.join_cons,
    String.toList_append]

theorem chars_append (ps qs : List Piece) :
    chars d style (ps ++ qs) = chars d style ps ++ chars d style qs := by
  induction ps with
  | nil => rfl
  | cons p ps ih => rw [List.cons_append, chars_cons, chars_cons, ih, List.append_assoc]

/-! ### What stands before other pieces -/

theorem Guarded.nil : Guarded d style [] := fun _ h => h

/-- A text that starts with a quiet character guards what is before it, whatever
is behind. -/
theorem Guarded.starts {text : String} (htext : text.toList.head?.any isQuiet = true)
    (ps : List Piece) : Guarded d style (.fixed text :: ps) := by
  intro rest _
  rw [chars_cons]
  show Calm d (text.toList ++ chars d style ps ++ rest)
  cases hchars : text.toList with
  | nil => rw [hchars] at htext; cases htext
  | cons c cs =>
    rw [hchars] at htext
    exact calm_of_isQuiet htext d _

theorem Guarded.quiet {text : String} (htext : IsQuiet text) (ps : List Piece) :
    Guarded d style (.fixed text :: ps) := by
  refine .starts ?_ ps
  cases hchars : text.toList with
  | nil => exact absurd (String.toList_eq_nil_iff.1 hchars) htext.1
  | cons c cs =>
    have hall := htext.2
    rw [hchars, List.all_cons, Bool.and_eq_true] at hall
    exact hall.1

theorem Guarded.append (hps : Guarded d style ps) (hqs : Guarded d style qs) :
    Guarded d style (ps ++ qs) := by
  intro rest hrest
  rw [chars_append, List.append_assoc]
  exact hps _ (hqs rest hrest)

namespace Legible

theorem nil : Legible d style [] := fun _ _ => rfl

/-- Legible pieces before guarded ones. -/
theorem append (hps : Legible d style ps) (hqs : Legible d style qs)
    (hguard : Guarded d style qs) : Legible d style (ps ++ qs) := by
  intro rest hrest
  rw [chars_append, List.append_assoc, hps _ (hguard rest hrest), hqs rest hrest,
    Piece.markers_append, List.map_append, List.append_assoc]

/-- Inert characters may stand before everything. -/
theorem inert {p : Piece} (hp : p.marker? = none)
    (h : ∀ c ∈ (p.text (d.spelling style)).toList, isInert c = true)
    (hps : Legible d style ps) : Legible d style (p :: ps) := by
  intro rest hrest
  have hmarkers : Piece.markers (p :: ps) = Piece.markers ps := List.filterMap_cons_none hp
  rw [chars_cons, List.append_assoc, readMarkers_inert_append d h, hps rest hrest, hmarkers]

/-- A quiet text in front of legible pieces. -/
theorem quiet {text : String} (htext : IsQuiet text) (hps : Legible d style ps) :
    Legible d style (.fixed text :: ps) := by
  refine inert rfl (fun c hc => ?_) hps
  exact isInert_of_isQuiet (List.all_eq_true.1 htext.2 c hc)

/-- Legible pieces on both sides of a quiet text. -/
theorem between {text : String} (hps : Legible d style ps) (htext : IsQuiet text)
    (hqs : Legible d style qs) : Legible d style (ps ++ .fixed text :: qs) :=
  hps.append (quiet htext hqs) (.quiet htext qs)

theorem name (text : String) : Legible d style [.name text] := by
  intro rest hrest
  rw [chars_cons, chars_nil, List.append_nil]
  exact readMarkers_name d text hrest

theorem marker (index : Nat) : Legible d style [.marker index] := by
  intro rest hrest
  rw [chars_cons, chars_nil, List.append_nil]
  exact readMarkers_marker d style index hrest

theorem table (index : Nat) (hps : Legible d style ps) :
    Legible d style (.table index :: ps) := by
  refine inert rfl (fun c hc => ?_) hps
  have hchars : c ∈ ("t" ++ toString index).toList := hc
  rw [String.toList_append] at hchars
  rcases List.mem_append.1 hchars with ht | hdigit
  · rw [List.mem_singleton.1 ht]
    decide
  · exact isInert_of_isDigit (isDigit_of_mem_toString hdigit)

/-- A fixed text with a string literal in it. -/
theorem literal {text : String} (before inside after : List Char)
    (htext : text.toList = before ++ '\'' :: (inside ++ '\'' :: after))
    (hbefore : before.all isInert = true) (hinside : '\'' ∉ inside)
    (hafter : after.all isInert = true) : Legible d style [.fixed text] := by
  intro rest hrest
  rw [List.all_eq_true] at hbefore hafter
  have hhead : (after ++ rest).head? ≠ some '\'' := by
    cases after with
    | nil =>
      cases rest with
      | nil => simp
      | cons c cs => simpa using hrest.2.2
    | cons c cs => simpa using (isInert_ne (hafter c List.mem_cons_self)).1
  have hskip : skipQuoted '\'' (inside ++ '\'' :: (after ++ rest)) = after ++ rest := by
    have hskip := skipQuoted_doubled hhead inside
    rwa [doubled_eq_self hinside] at hskip
  have hopen : '\'' ≠ d.openQuote := by cases d <;> decide
  rw [chars_cons, chars_nil, List.append_nil]
  show readMarkers d (text.toList ++ rest) = readMarkers d rest
  rw [htext, List.append_assoc, readMarkers_inert_append d hbefore, List.cons_append,
    List.append_assoc, List.cons_append, readMarkers, if_neg hopen, if_pos rfl, hskip,
    readMarkers_inert_append d hafter]

/-- Parts with a quiet text between each two of them. -/
theorem join {glue : String} (hglue : IsQuiet glue) {parts : List (List Piece)}
    (h : ∀ part ∈ parts, Legible d style part) : Legible d style (Piece.join glue parts) := by
  induction parts with
  | nil => exact nil
  | cons part parts ih =>
    have hpart := h part List.mem_cons_self
    cases parts with
    | nil => exact hpart
    | cons next others =>
      rw [Piece.join_cons_cons]
      exact hpart.between hglue (ih fun q hq => h q (List.mem_cons_of_mem part hq))

theorem clause {opening glue : String} (hopening : IsQuiet opening) (hglue : IsQuiet glue)
    {parts : List (List Piece)} (h : ∀ part ∈ parts, Legible d style part) :
    Legible d style (Piece.clause opening glue parts) := by
  unfold Piece.clause
  split
  · exact nil
  · exact quiet hopening (join hglue h)

end Legible

theorem Guarded.clause {opening : String} (hopening : IsQuiet opening) (glue : String)
    (parts : List (List Piece)) : Guarded d style (Piece.clause opening glue parts) := by
  unfold Piece.clause
  split
  · exact .nil
  · exact .quiet hopening _

/-- What the reader finds in a whole text. -/
theorem Legible.markersIn_eq (h : Legible d style ps) :
    d.markersIn (Piece.textAll (d.spelling style) ps) =
      (Piece.markers ps).map (d.marker style) := by
  have hread := h [] trivial
  rw [List.append_nil, readMarkers, List.append_nil] at hread
  exact hread

end Legible
end ResourceQuery.Sql

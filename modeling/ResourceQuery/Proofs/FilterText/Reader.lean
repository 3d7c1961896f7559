import ResourceQuery.Proofs.FilterText.Grammar
import ResourceQuery.Proofs.Number.Numeral
import ResourceQuery.Statement.Piece

set_option autoImplicit false

/-!
# Filter texts: reading

A reader groups the characters of a filter into signs.  It knows the quotes of
the target's language and the characters that stand alone; what is between
blanks, quotes and these is a word.  Markers are words with a sign of their own
in front.  They stand for the bound values one after the other, and each has to
be the marker that the target writes for the value in its turn.

The reader is a machine that is fed characters one at a time; `run_append` lets
texts be read in parts.  Whether a part is read by itself depends on what comes
behind it: `Closes` asks for nothing, `Spells` for a delimiter or the end.
-/

namespace ResourceQuery.FilterText

/-! ## The reader -/

/-- What a reader knows of a target's language. -/
structure Reader where
  /-- The quote that ends what a quote begins. -/
  closing : Char → Option Char
  /-- A backslash takes the next character as it is.  Otherwise the closing
  quote is doubled where it does not close. -/
  escapes : Bool
  /-- The characters that are signs by themselves. -/
  alone : List Char
  /-- The characters that markers start with. -/
  leads : List Char

/-- What a reader is in the middle of. -/
inductive Pending where
  | rest
  | word (cs : List Char)
  | quoted (close : Char) (cs : List Char)
  /-- Behind a backslash in quotes. -/
  | escaped (close : Char) (cs : List Char)
  /-- Behind a closing quote, which may yet turn out to be doubled. -/
  | closed (close : Char) (cs : List Char)
  deriving DecidableEq, Repr

/-- The sign that ends where the text ends. -/
def Pending.last? : Pending → Option (List Sign)
  | rest => some []
  | word cs => some [.word (String.ofList cs)]
  | closed _ cs => some [.quoted (String.ofList cs)]
  | quoted _ _ | escaped _ _ => none

namespace Reader

variable (r : Reader)

/-- The character ends a word before it and is no part of one. -/
def isDelimiter (c : Char) : Bool := c = ' ' || r.alone.contains c

/-- The character is part of a word. -/
def isLetter (c : Char) : Bool := !r.isDelimiter c && (r.closing c).isNone

/-- The signs that end with a character, if nothing is pending before it, and
what is pending behind it. -/
def begin (c : Char) : List Sign × Pending :=
  if c = ' ' then ([], .rest)
  else match r.closing c with
    | some close => ([], .quoted close [])
    | none => if r.alone.contains c then ([.mark c], .rest) else ([], .word [c])

/-- The signs that end with a character, and what is pending behind it. -/
def feed : Pending → Char → List Sign × Pending
  | .rest, c => r.begin c
  | .word cs, c =>
    if r.isLetter c then ([], .word (cs ++ [c]))
    else (.word (String.ofList cs) :: (r.begin c).1, (r.begin c).2)
  | .quoted close cs, c =>
    if r.escapes && c = '\\' then ([], .escaped close cs)
    else if c = close then
      if r.escapes then ([.quoted (String.ofList cs)], .rest) else ([], .closed close cs)
    else ([], .quoted close (cs ++ [c]))
  | .escaped close cs, c => ([], .quoted close (cs ++ [c]))
  | .closed close cs, c =>
    if c = close then ([], .quoted close (cs ++ [c]))
    else (.quoted (String.ofList cs) :: (r.begin c).1, (r.begin c).2)

/-- The signs that end in a text, and what is pending behind it. -/
def run : Pending → List Char → List Sign × Pending
  | p, [] => ([], p)
  | p, c :: cs => ((r.feed p c).1 ++ (run (r.feed p c).2 cs).1, (run (r.feed p c).2 cs).2)

/-- The signs of a text, unless it ends in quotes. -/
def lex (cs : List Char) : Option (List Sign) :=
  (r.run .rest cs).2.last?.map fun last => (r.run .rest cs).1 ++ last

/-- The word is a marker. -/
def isMarker (word : String) : Bool := word.toList.head?.any r.leads.contains

/-- Puts values in the places of markers, from the one at place `n` on. -/
def number (spell : Nat → String) (values : Bindings) : Nat → List Sign → Option (List Sign)
  | _, [] => some []
  | n, .word w :: signs =>
    if r.isMarker w then
      match values[n]? with
      | some (_, value) =>
        if w = spell (n + 1) then
          (number spell values (n + 1) signs).map fun rest => .value value :: rest
        else none
      | none => none
    else (number spell values n signs).map fun rest => .word w :: rest
  | n, s :: signs => (number spell values n signs).map fun rest => s :: rest

/-- The text is read as the formula.  `n` values were bound before those of the text. -/
def ReadsAs (spell : Nat → String) (values : Bindings) (n : Nat) (text : String) (φ : Formula) :
    Prop :=
  ∃ signs, (r.lex text.toList).bind (r.number spell values n) = some signs ∧
    Reads .disjunction signs φ

/-! ## Runs -/

variable {r}

theorem run_append (xs ys : List Char) : ∀ p, r.run p (xs ++ ys) =
    ((r.run p xs).1 ++ (r.run (r.run p xs).2 ys).1, (r.run (r.run p xs).2 ys).2) := by
  induction xs with
  | nil => intro p; rfl
  | cons c xs ih =>
    intro p
    rw [List.cons_append, run, ih, run, List.append_assoc]

/-- Readers that differ in quotes only read the same in a text without these. -/
theorem run_congr {r' : Reader} (hescapes : r'.escapes = r.escapes) (halone : r'.alone = r.alone)
    {cs : List Char} (h : ∀ c ∈ cs, r'.closing c = r.closing c) : ∀ p, r'.run p cs = r.run p cs := by
  have hfeed : ∀ c, r'.closing c = r.closing c → ∀ p, r'.feed p c = r.feed p c := by
    intro c hc p
    have hdelimiter : r'.isDelimiter c = r.isDelimiter c := by rw [isDelimiter, isDelimiter, halone]
    have hletter : r'.isLetter c = r.isLetter c := by rw [isLetter, isLetter, hdelimiter, hc]
    have hbegin : r'.begin c = r.begin c := by rw [begin, begin, hc, halone]
    cases p <;> simp only [feed, hbegin, hletter, hescapes]
  induction cs with
  | nil => exact fun p => rfl
  | cons c cs ih =>
    intro p
    rw [run, run, hfeed c (h c List.mem_cons_self), ih fun x hx => h x (List.mem_cons_of_mem c hx)]

theorem isLetter_of_isDelimiter {c : Char} (h : r.isDelimiter c = true) : r.isLetter c = false := by
  rw [isLetter, h]
  rfl

/-- What may be pending where a delimiter comes next, and the sign that it then is. -/
inductive Ends (r : Reader) : Pending → List Sign → Prop where
  | rest : Ends r .rest []
  | word (cs : List Char) : Ends r (.word cs) [.word (String.ofList cs)]
  | closed {close : Char} (h : r.isDelimiter close = false) (cs : List Char) :
      Ends r (.closed close cs) [.quoted (String.ofList cs)]

theorem Ends.last?_eq {p : Pending} {last : List Sign} (h : r.Ends p last) : p.last? = some last := by
  cases h <;> rfl

theorem Ends.feed_eq {p : Pending} {last : List Sign} (h : r.Ends p last) {c : Char}
    (hc : r.isDelimiter c = true) :
    r.feed p c = (last ++ (r.feed .rest c).1, (r.feed .rest c).2) := by
  cases h with
  | rest => rfl
  | word cs =>
    simp only [feed, isLetter_of_isDelimiter hc, Bool.false_eq_true, if_false]
    rfl
  | @closed close h cs =>
    have hne : c ≠ close := by
      rintro rfl
      rw [hc] at h
      cases h
    simp only [feed, if_neg hne]
    rfl

/-- The text is grouped into the signs, whatever was read before, if a delimiter
or nothing comes behind it. -/
def Spells (r : Reader) (cs : List Char) (signs : List Sign) : Prop :=
  ∃ last, r.Ends (r.run .rest cs).2 last ∧ signs = (r.run .rest cs).1 ++ last

/-- The text is grouped into the signs, and none goes on behind it. -/
def Closes (r : Reader) (cs : List Char) (signs : List Sign) : Prop :=
  r.run .rest cs = (signs, .rest)

variable {xs ys : List Char} {signs signs' : List Sign}

theorem Closes.spells (h : r.Closes xs signs) : r.Spells xs signs := by
  refine ⟨[], ?_, ?_⟩
  · rw [h]
    exact .rest
  · rw [h, List.append_nil]

theorem Closes.append (h : r.Closes xs signs) (h' : r.Spells ys signs') :
    r.Spells (xs ++ ys) (signs ++ signs') := by
  obtain ⟨last, hends, rfl⟩ := h'
  refine ⟨last, ?_, ?_⟩
  · rw [run_append, h]
    exact hends
  · rw [run_append, h, List.append_assoc]

theorem Closes.append_closes (h : r.Closes xs signs) (h' : r.Closes ys signs') :
    r.Closes (xs ++ ys) (signs ++ signs') := by
  rw [Closes, run_append, h, h']

/-- Behind a text that ends before a delimiter. -/
theorem Spells.run_append {c : Char} (h : r.Spells xs signs) (hc : r.isDelimiter c = true) :
    r.run .rest (xs ++ c :: ys) =
      (signs ++ (r.run .rest (c :: ys)).1, (r.run .rest (c :: ys)).2) := by
  obtain ⟨last, hends, rfl⟩ := h
  rw [Reader.run_append, run, hends.feed_eq hc, run]
  simp only [List.append_assoc]

/-- Two texts, where the second one starts with a delimiter. -/
theorem Spells.append {c : Char} (h : r.Spells xs signs) (hc : r.isDelimiter c = true)
    (h' : r.Spells (c :: ys) signs') : r.Spells (xs ++ c :: ys) (signs ++ signs') := by
  obtain ⟨last, hends, rfl⟩ := h'
  refine ⟨last, ?_, ?_⟩
  · rw [h.run_append hc]
    exact hends
  · rw [h.run_append hc, List.append_assoc]

theorem Spells.append_closes {c : Char} (h : r.Spells xs signs) (hc : r.isDelimiter c = true)
    (h' : r.Closes (c :: ys) signs') : r.Closes (xs ++ c :: ys) (signs ++ signs') := by
  rw [Closes, h.run_append hc, h']

theorem Spells.lex_eq (h : r.Spells xs signs) : r.lex xs = some signs := by
  obtain ⟨last, hends, rfl⟩ := h
  rw [lex, hends.last?_eq]
  rfl

theorem spells_of_run_word {word : List Char} (h : r.run .rest xs = (signs, .word word)) :
    r.Spells xs (signs ++ [.word (String.ofList word)]) := by
  rw [Spells, h]
  exact ⟨_, .word word, rfl⟩

theorem spells_of_run_closed {close : Char} {body : List Char} (hclose : r.isDelimiter close = false)
    (h : r.run .rest xs = (signs, .closed close body)) :
    r.Spells xs (signs ++ [.quoted (String.ofList body)]) := by
  rw [Spells, h]
  exact ⟨_, .closed hclose body, rfl⟩

/-! ## Words -/

theorem run_word {cs : List Char} (h : ∀ c ∈ cs, r.isLetter c = true) :
    ∀ word, r.run (.word word) cs = ([], .word (word ++ cs)) := by
  induction cs with
  | nil => intro word; rw [run, List.append_nil]
  | cons c cs ih =>
    intro word
    have hc := h c List.mem_cons_self
    rw [run, feed, if_pos hc, ih (fun x hx => h x (List.mem_cons_of_mem c hx)), List.append_assoc]
    rfl

theorem begin_of_isLetter {c : Char} (h : r.isLetter c = true) : r.begin c = ([], .word [c]) := by
  simp only [isLetter, isDelimiter, Bool.and_eq_true, Bool.not_eq_true', Bool.or_eq_false_iff,
    decide_eq_false_iff_not] at h
  rw [begin, if_neg h.1.1, Option.isNone_iff_eq_none.1 h.2, h.1.2]
  rfl

/-- Letters from the start on are one word, which is still pending. -/
theorem run_letters {cs : List Char} (hne : cs ≠ []) (h : ∀ c ∈ cs, r.isLetter c = true) :
    r.run .rest cs = ([], .word cs) := by
  cases cs with
  | nil => exact absurd rfl hne
  | cons c cs =>
    rw [run, feed, begin_of_isLetter (h c List.mem_cons_self),
      run_word fun x hx => h x (List.mem_cons_of_mem c hx)]
    rfl

/-- A text of letters is a word. -/
theorem spells_word {cs : List Char} (hne : cs ≠ []) (h : ∀ c ∈ cs, r.isLetter c = true) :
    r.Spells cs [.word (String.ofList cs)] := by
  rw [Spells, run_letters hne h]
  exact ⟨_, .word cs, rfl⟩

theorem closes_blank : r.Closes [' '] [] := rfl

/-- A character that stands alone is a mark. -/
theorem closes_mark {c : Char} (hblank : c ≠ ' ') (hclosing : r.closing c = none)
    (halone : r.alone.contains c = true) : r.Closes [c] [.mark c] := by
  rw [Closes, run, run, feed, begin, if_neg hblank, hclosing]
  dsimp only
  rw [if_pos halone]
  rfl

/-- A word of letters before a blank. -/
theorem closes_word {w : String} (hne : w.toList ≠ []) (h : w.toList.all r.isLetter = true) :
    r.Closes (w.toList ++ [' ']) [.word w] := by
  have hword := (spells_word hne (List.all_eq_true.1 h)).append_closes rfl closes_blank
  rwa [String.ofList_toList] at hword

/-- The reader takes digits for letters. -/
def TakesDigits (r : Reader) : Prop := "0123456789".toList.all r.isLetter = true

/-- A word that goes on with a number. -/
theorem isLetter_numbered (hr : r.TakesDigits) {lead : String}
    (hlead : lead.toList.all r.isLetter = true) (n : Nat) :
    ∀ c ∈ (lead ++ toString n).toList, r.isLetter c = true := by
  intro c hc
  rw [String.toList_append] at hc
  rcases List.mem_append.1 hc with hc | hc
  · exact List.all_eq_true.1 hlead c hc
  · exact List.all_eq_true.1 hr c (Number.mem_of_isDigit (Number.isDigit_of_mem_toString hc))

/-- A word with the sign of a marker in front and a number behind it is a
marker, whatever stands between the two. -/
theorem marker_numbered (hr : r.TakesDigits) (lead : String) {first : Char}
    (hfirst : lead.toList.head? = some first) (hlead : r.leads.contains first = true)
    (hletters : lead.toList.all r.isLetter = true) (k : Nat) :
    (lead ++ toString k).toList ≠ [] ∧
      (∀ c ∈ (lead ++ toString k).toList, r.isLetter c = true) ∧
      r.isMarker (lead ++ toString k) = true := by
  obtain ⟨rest, hrest⟩ := List.head?_eq_some_iff.1 hfirst
  have htext : (lead ++ toString k).toList = first :: (rest ++ (toString k).toList) := by
    rw [String.toList_append, hrest, List.cons_append]
  refine ⟨?_, isLetter_numbered hr hletters k, ?_⟩
  · rw [htext]
    exact List.cons_ne_nil _ _
  · rw [isMarker, htext, List.head?_cons, Option.any_some, hlead]

/-! ## Texts without quotes -/

/-- The sign is a mark, or a word of such characters. -/
def Within (S : Char → Prop) (s : Sign) : Prop :=
  (∃ w, s = .word (String.ofList w) ∧ ∀ c ∈ w, S c) ∨ ∃ c, s = .mark c

/-- Nothing is pending, or a word of such characters is. -/
def Underway (S : Char → Prop) (p : Pending) : Prop :=
  p = .rest ∨ ∃ w, p = .word w ∧ ∀ c ∈ w, S c

theorem feed_plain {S : Char → Prop} {c : Char} (hclosing : r.closing c = none) (hc : S c)
    {p : Pending} (hp : Underway S p) :
    Underway S (r.feed p c).2 ∧ ∀ s ∈ (r.feed p c).1, Within S s := by
  have hbegin : Underway S (r.begin c).2 ∧ ∀ s ∈ (r.begin c).1, Within S s := by
    unfold begin
    rw [hclosing]
    by_cases hblank : c = ' '
    · rw [if_pos hblank]
      exact ⟨.inl rfl, fun s hs => absurd hs List.not_mem_nil⟩
    · rw [if_neg hblank]
      dsimp only
      split
      · exact ⟨.inl rfl, fun s hs => .inr ⟨c, List.mem_singleton.1 hs⟩⟩
      · exact ⟨.inr ⟨[c], rfl, fun x hx => List.mem_singleton.1 hx ▸ hc⟩,
          fun s hs => absurd hs List.not_mem_nil⟩
  rcases hp with rfl | ⟨w, rfl, hw⟩
  · exact hbegin
  · rw [feed]
    split
    · refine ⟨.inr ⟨w ++ [c], rfl, fun x hx => ?_⟩, fun s hs => absurd hs List.not_mem_nil⟩
      rcases List.mem_append.1 hx with hx | hx
      · exact hw x hx
      · exact List.mem_singleton.1 hx ▸ hc
    · refine ⟨hbegin.1, fun s hs => ?_⟩
      rcases List.mem_cons.1 hs with rfl | hs
      · exact .inl ⟨w, rfl, hw⟩
      · exact hbegin.2 s hs

theorem run_plain {S : Char → Prop} {cs : List Char}
    (h : ∀ c ∈ cs, r.closing c = none ∧ S c) : ∀ {p : Pending}, Underway S p →
    Underway S (r.run p cs).2 ∧ ∀ s ∈ (r.run p cs).1, Within S s := by
  induction cs with
  | nil => exact fun hp => ⟨hp, fun s hs => absurd hs List.not_mem_nil⟩
  | cons c cs ih =>
    intro p hp
    obtain ⟨hclosing, hc⟩ := h c List.mem_cons_self
    obtain ⟨hnext, hsigns⟩ := feed_plain hclosing hc hp
    obtain ⟨hlast, hrest⟩ := ih (fun x hx => h x (List.mem_cons_of_mem c hx)) hnext
    refine ⟨hlast, fun s hs => ?_⟩
    rw [run] at hs
    exact (List.mem_append.1 hs).elim (hsigns s) (hrest s)

/-- A text without quotes is read as words of its characters and marks. -/
theorem exists_spells_plain {S : Char → Prop} {cs : List Char}
    (h : ∀ c ∈ cs, r.closing c = none ∧ S c) :
    ∃ ss, r.Spells cs ss ∧ ∀ s ∈ ss, Within S s := by
  obtain ⟨hlast, hsigns⟩ := run_plain h (.inl rfl : Underway S .rest)
  rcases hlast with hrest | ⟨w, hword, hw⟩
  · exact ⟨_, Closes.spells (Prod.ext rfl hrest), hsigns⟩
  · refine ⟨_, spells_of_run_word (Prod.ext rfl hword), fun s hs => ?_⟩
    rcases List.mem_append.1 hs with hs | hs
    · exact hsigns s hs
    · exact .inl ⟨w, List.mem_singleton.1 hs, hw⟩

/-! ## Quotes -/

/-- A quoted text with its closing quotes doubled. -/
theorem run_doubled (hr : r.escapes = false) {close : Char} (body : List Char) : ∀ cs,
    r.run (.quoted close cs) (body.flatMap (fun c => if c = close then [c, c] else [c])) =
      ([], .quoted close (cs ++ body)) := by
  induction body with
  | nil => intro cs; rw [List.flatMap_nil, run, List.append_nil]
  | cons c body ih =>
    intro cs
    rw [List.flatMap_cons]
    by_cases hc : c = close
    · subst hc
      simp [run, feed, hr, ih]
    · simp [run, feed, hr, hc, ih]

/-- A quoted text with backslashes before its quotes and none elsewhere. -/
theorem run_escaped (hr : r.escapes = true) {close : Char} (hclose : close ≠ '\\')
    {body : List Char} (hbody : '\\' ∉ body) : ∀ cs,
    r.run (.quoted close cs) (body.flatMap (fun c => if c = close then ['\\', c] else [c])) =
      ([], .quoted close (cs ++ body)) := by
  induction body with
  | nil => intro cs; rw [List.flatMap_nil, run, List.append_nil]
  | cons c body ih =>
    intro cs
    rw [List.mem_cons, not_or] at hbody
    have ih := ih hbody.2
    rw [List.flatMap_cons]
    by_cases hc : c = close
    · subst hc
      simp [run, feed, hr, ih]
    · simp [run, feed, hr, hc, Ne.symm hbody.1, ih]

theorem begin_of_closing {c close : Char} (hblank : c ≠ ' ') (h : r.closing c = some close) :
    r.begin c = ([], .quoted close []) := by
  rw [begin, if_neg hblank, h]

/-- A quoted text with its closing quotes doubled. -/
theorem spells_quoted (hr : r.escapes = false) {quote close : Char} (hblank : quote ≠ ' ')
    (hquote : r.closing quote = some close) (hclose : r.isDelimiter close = false)
    (body : List Char) :
    r.Spells (quote :: (body.flatMap (fun c => if c = close then [c, c] else [c]) ++ [close]))
      [.quoted (String.ofList body)] := by
  have hrun : r.run .rest
      (quote :: (body.flatMap (fun c => if c = close then [c, c] else [c]) ++ [close])) =
        ([], .closed close body) := by
    rw [run, feed, begin_of_closing hblank hquote, run_append, run_doubled hr]
    simp [run, feed, hr]
  exact spells_of_run_closed hclose hrun

/-- A word and a quoted text with its closing quotes doubled. -/
theorem spells_doubled (hr : r.escapes = false) {word : List Char} (hne : word ≠ [])
    (hword : ∀ c ∈ word, r.isLetter c = true) {quote close : Char} (hblank : quote ≠ ' ')
    (hquote : r.closing quote = some close) (hclose : r.isDelimiter close = false)
    (body : List Char) :
    r.Spells (word ++
        quote :: (body.flatMap (fun c => if c = close then [c, c] else [c]) ++ [close]))
      [.word (String.ofList word), .quoted (String.ofList body)] := by
  have hletter : r.isLetter quote = false := by rw [isLetter, hquote, Option.isNone_some,
    Bool.and_false]
  have hrun : r.run .rest (word ++
      quote :: (body.flatMap (fun c => if c = close then [c, c] else [c]) ++ [close])) =
        ([.word (String.ofList word)], .closed close body) := by
    rw [run_append, run_letters hne hword, run, feed, hletter, begin_of_closing hblank hquote,
      if_neg (by decide), run_append, run_doubled hr]
    simp [run, feed, hr]
  exact spells_of_run_closed hclose hrun

/-- A quoted text with backslashes before its quotes. -/
theorem closes_escaped (hr : r.escapes = true) {quote : Char} (hblank : quote ≠ ' ')
    (hquote : r.closing quote = some quote) (hne : quote ≠ '\\') {body : List Char}
    (hbody : '\\' ∉ body) :
    r.Closes (quote :: (body.flatMap (fun c => if c = quote then ['\\', c] else [c]) ++ [quote]))
      [.quoted (String.ofList body)] := by
  rw [Closes, run, feed, begin_of_closing hblank hquote, run_append, run_escaped hr hne hbody]
  simp [run, feed, hr, hne]

end Reader
end ResourceQuery.FilterText

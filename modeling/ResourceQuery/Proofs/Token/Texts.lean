import ResourceQuery.Proofs.Token.LongestMatch
import ResourceQuery.Term.Printer

set_option autoImplicit false

/-!
# Tokens: the texts that tokens have

Undoing escapes leaves texts of a certain form: a backslash in them stands
before a character that is not structural, and a bare text has no line feed at
either end. These are also the texts that can be written back: what the printer
makes of them is read as the same text again.
-/

namespace ResourceQuery

/-! ## Characters -/

theorem Token.isStructural_backslash : Token.isStructural '\\' = false := by decide

theorem Lexeme.isBlank_of_isGap {c : Char} (h : Lexeme.isGap c = true) :
    Text.isBlank c = true := by
  have hchars : c = ' ' ∨ c = '\t' ∨ c = '\r' ∨ c = '\n' ∨ c = '\x0c' := by
    simpa [Lexeme.isGap, or_assoc] using h
  rcases hchars with rfl | rfl | rfl | rfl | rfl <;> decide

theorem Token.isStructural_of_isBlank {c : Char} (h : Text.isBlank c = true) :
    Token.isStructural c = true := by
  simp [Token.isStructural, h]

theorem Quote.isStructural_char (q : Quote) : Token.isStructural q.char = true := by
  cases q <;> decide

/-- Only a backslash is reserved and not structural. -/
theorem Lexeme.step_of_not_structural {c : Char} (hc : c ≠ '\\')
    (h : Token.isStructural c = false) : Lexeme.Step [c] := by
  have hblank : Text.isBlank c = false := by
    cases hb : Text.isBlank c with
    | false => rfl
    | true => rw [Token.isStructural_of_isBlank hb] at h; cases h
  refine .plain ?_ ?_
  · cases hgap : Lexeme.isGap c with
    | false => rfl
    | true => rw [Lexeme.isBlank_of_isGap hgap] at hblank; cases hblank
  · simp only [Token.isStructural, Bool.or_eq_false_iff, beq_eq_false_iff_ne] at h
    simp [Lexeme.isReserved, h, hc]

/-- A blank that does not divide lexemes is an ordinary character. -/
theorem Lexeme.step_of_isBlank {c : Char} (h : Text.isBlank c = true)
    (hgap : Lexeme.isGap c = false) : Lexeme.Step [c] := by
  refine .plain hgap ?_
  cases hreserved : Lexeme.isReserved c with
  | false => rfl
  | true =>
    have hchars : c = '(' ∨ c = ')' ∨ c = ',' ∨ c = '=' ∨ c = '\'' ∨ c = '"' ∨ c = '\\' := by
      simpa [Lexeme.isReserved, or_assoc] using hreserved
    rcases hchars with rfl | rfl | rfl | rfl | rfl | rfl | rfl <;> exact absurd h (by decide)

namespace Token

/-! ## Texts that can be written back -/

/-- Every backslash stands before a character that is not structural, and takes
it with it. -/
inductive Paired : List Char → Prop where
  | nil : Paired []
  | plain {c : Char} {cs : List Char} (hc : c ≠ '\\') (h : Paired cs) : Paired (c :: cs)
  | pair {c : Char} {cs : List Char} (hc : isStructural c = false) (h : Paired cs) :
      Paired ('\\' :: c :: cs)

/-- Every backslash takes a character with it, which is neither a line feed nor the quote. -/
inductive Quotable (q : Quote) : List Char → Prop where
  | nil : Quotable q []
  | plain {c : Char} {cs : List Char} (hc : c ≠ '\\') (h : Quotable q cs) : Quotable q (c :: cs)
  | pair {c : Char} {cs : List Char} (hline : c ≠ '\n') (hquote : c ≠ q.char)
      (h : Quotable q cs) : Quotable q ('\\' :: c :: cs)

theorem Paired.quotable (q : Quote) {cs : List Char} (h : Paired cs) : Quotable q cs := by
  induction h with
  | nil => exact .nil
  | plain hc _ ih => exact .plain hc ih
  | @pair c cs hc _ ih =>
    refine .pair ?_ ?_ ih
    · rintro rfl
      exact absurd hc (by decide)
    · rintro rfl
      rw [q.isStructural_char] at hc
      cases hc

/-- No line feed stands at either end, and there is a character. -/
structure Edged (cs : List Char) : Prop where
  nonempty : cs ≠ []
  head : cs.head? ≠ some '\n'
  last : cs.getLast? ≠ some '\n'

/-- The text of a token in its quotes. -/
def Proper (text : String) : Option Quote → Prop
  | some _ => Paired text.toList
  | none => Paired text.toList ∧ Edged text.toList

theorem unescape_plain {c : Char} (hc : c ≠ '\\') (cs : List Char) :
    unescape (c :: cs) = c :: unescape cs := by
  rw [unescape]
  intro h
  exact hc h

theorem unescape_structural {c : Char} (hc : isStructural c = true) (cs : List Char) :
    unescape ('\\' :: c :: cs) = c :: unescape cs := by
  rw [unescape]
  simp [hc]

/-- A backslash before a character that is not structural stays where it is. -/
theorem unescape_pair {c : Char} (hc : isStructural c = false) (cs : List Char) :
    unescape ('\\' :: c :: cs) = '\\' :: c :: unescape cs := by
  rw [unescape]
  simp [hc]

/-- A text that can be written back has no escape that could be undone. -/
theorem Paired.unescape_eq {cs : List Char} (h : Paired cs) : unescape cs = cs := by
  induction h with
  | nil => rfl
  | plain hc _ ih => rw [unescape_plain hc, ih]
  | pair hc _ ih => rw [unescape_pair hc, ih]

end Token

/-! ## Quoted texts -/

namespace Term

open Token

/-- The characters of a quoted text between its quotes. -/
def quotedChars (q : Quote) (cs : List Char) : List Char :=
  cs.flatMap fun c => if c = q.char then ['\\', c] else [c]

theorem writeQuoted_eq (q : Quote) (cs : List Char) :
    writeQuoted q cs = q.char :: (quotedChars q cs ++ [q.char]) := rfl

theorem quotedChars_quote (q : Quote) (cs : List Char) :
    quotedChars q (q.char :: cs) = '\\' :: q.char :: quotedChars q cs := by
  simp [quotedChars]

theorem quotedChars_other {q : Quote} {c : Char} (hc : c ≠ q.char) (cs : List Char) :
    quotedChars q (c :: cs) = c :: quotedChars q cs := by
  simp [quotedChars, hc]

theorem quotedChars_pair {q : Quote} {c : Char} (hc : c ≠ q.char) (cs : List Char) :
    quotedChars q ('\\' :: c :: cs) = '\\' :: c :: quotedChars q cs := by
  have hback : '\\' ≠ q.char := by cases q <;> decide
  rw [quotedChars_other hback, quotedChars_other hc]

/-- Undoing the escapes of a quoted text undoes those of the quote and of the text. -/
theorem unescape_quotedChars {q : Quote} {cs : List Char} (h : Quotable q cs) :
    unescape (quotedChars q cs) = unescape cs := by
  induction h with
  | nil => rfl
  | @plain c cs hc _ ih =>
    rw [unescape_plain hc]
    by_cases hq : c = q.char
    · subst hq
      rw [quotedChars_quote, unescape_structural q.isStructural_char, ih]
    · rw [quotedChars_other hq, unescape_plain hc, ih]
  | @pair c cs _ hquote _ ih =>
    rw [quotedChars_pair hquote]
    cases hstructural : isStructural c with
    | true => rw [unescape_structural hstructural, unescape_structural hstructural, ih]
    | false => rw [unescape_pair hstructural, unescape_pair hstructural, ih]

/-- What is written between quotes does not close them. -/
theorem enclosed_quotedChars {q : Quote} {cs : List Char} (h : Quotable q cs) :
    Lexeme.Enclosed q.char (quotedChars q cs) := by
  induction h with
  | nil => exact .nil
  | @plain c cs hc _ ih =>
    by_cases hq : c = q.char
    · subst hq
      rw [quotedChars_quote]
      exact .escape (by cases q <;> decide) ih
    · rw [quotedChars_other hq]
      exact .plain hq hc ih
  | pair hline hquote _ ih =>
    rw [quotedChars_pair hquote]
    exact .escape hline ih

/-- A quoted text ends at its closing quote. -/
theorem quotedStretch_quotedChars {q : Quote} {cs : List Char} (h : Quotable q cs)
    (rest : List Char) :
    Lexeme.quotedStretch q.char (quotedChars q cs ++ q.char :: rest) =
      some (quotedChars q cs ++ [q.char], rest) :=
  Lexeme.quotedStretch_of_enclosed q.char_ne_backslash (enclosed_quotedChars h) rest

/-! ## Bare texts -/

theorem writeBareRest_cons (c : Char) (cs : List Char) :
    writeBareRest (c :: cs) = writeBareChar cs.isEmpty c ++ writeBareRest cs := by
  cases cs with
  | nil => exact (List.append_nil _).symm
  | cons d cs => rfl

theorem writeBareChar_plain {c : Char} (h : isStructural c = false) (edge : Bool) :
    writeBareChar edge c = [c] := by
  simp [writeBareChar, h]

theorem writeBareChar_escape {c : Char} {edge : Bool} (h : isStructural c = true)
    (hedge : Text.isBlank c = false ∨ edge = true) : writeBareChar edge c = ['\\', c] := by
  rcases hedge with hblank | rfl
  · simp [writeBareChar, h, hblank]
  · simp [writeBareChar, h]

theorem writeBareChar_blank {c : Char} (h : Text.isBlank c = true) :
    writeBareChar false c = [c] := by
  simp [writeBareChar, h]

/-- Undoing the escape of a character gives the character. -/
theorem unescape_writeBareChar {c : Char} (hc : c ≠ '\\') (edge : Bool) (cs : List Char) :
    unescape (writeBareChar edge c ++ cs) = c :: unescape cs := by
  unfold writeBareChar
  split
  · next h =>
    have hstructural : isStructural c = true := by
      simp only [Bool.and_eq_true] at h
      exact h.1
    exact unescape_structural hstructural cs
  · exact unescape_plain hc cs

theorem writeBareRest_pair {c : Char} (hc : isStructural c = false) (cs : List Char) :
    writeBareRest ('\\' :: c :: cs) = '\\' :: c :: writeBareRest cs := by
  rw [writeBareRest_cons, writeBareRest_cons, writeBareChar_plain isStructural_backslash,
    writeBareChar_plain hc]
  rfl

theorem writeBare_pair {c : Char} (hc : isStructural c = false) (cs : List Char) :
    writeBare ('\\' :: c :: cs) = '\\' :: c :: writeBareRest cs := by
  rw [writeBare, writeBareRest_cons, writeBareChar_plain isStructural_backslash,
    writeBareChar_plain hc]
  rfl

theorem unescape_writeBareRest {cs : List Char} (h : Paired cs) :
    unescape (writeBareRest cs) = cs := by
  induction h with
  | nil => rfl
  | @plain c cs hc _ ih => rw [writeBareRest_cons, unescape_writeBareChar hc, ih]
  | @pair c cs hc _ ih => rw [writeBareRest_pair hc, unescape_pair hc, ih]

/-- Undoing the escapes of a bare text gives the text. -/
theorem unescape_writeBare {cs : List Char} (h : Paired cs) (hne : cs ≠ []) :
    unescape (writeBare cs) = cs := by
  cases h with
  | nil => exact absurd rfl hne
  | @plain c cs hc h => rw [writeBare, unescape_writeBareChar hc, unescape_writeBareRest h]
  | @pair c cs hc h => rw [writeBare_pair hc, unescape_pair hc, unescape_writeBareRest h]

end Term

/-! ## Texts that are written are read back -/

namespace Token

open Term

/-- Steps with blanks before each of them: how a bare text goes on once it has
started.  It does not end in blanks. -/
inductive Trail : List Char → Prop where
  | nil : Trail []
  | step {gap u cs : List Char} (hgap : ∀ c ∈ gap, Lexeme.isGap c = true) (hu : Lexeme.Step u)
      (h : Trail cs) : Trail (gap ++ (u ++ cs))

/-- A line feed that does not end a text does not end what is left of it. -/
theorem getLast?_ne_of_cons {c : Char} {cs : List Char} (h : (c :: cs).getLast? ≠ some '\n') :
    cs.getLast? ≠ some '\n' := by
  cases cs with
  | nil => simp
  | cons d cs => simpa using h

/-- What the printer writes of a text after its first character goes on a bare
text. `gap` are blanks inside the text that stand before it. -/
theorem trail_writeBareRest {cs : List Char} (h : Paired cs) :
    ∀ gap : List Char, (∀ c ∈ gap, Lexeme.isGap c = true) → (cs = [] → gap = []) →
      cs.getLast? ≠ some '\n' → Trail (gap ++ writeBareRest cs) := by
  induction h with
  | nil =>
    intro gap _ hnil _
    rw [hnil rfl]
    exact .nil
  | @plain c cs hc _ ih =>
    intro gap hgap _ hlast
    have hrest := getLast?_ne_of_cons hlast
    rw [writeBareRest_cons]
    cases hstructural : isStructural c with
    | false =>
      rw [writeBareChar_plain hstructural]
      exact .step hgap (Lexeme.step_of_not_structural hc hstructural)
        (ih [] (by simp) (fun _ => rfl) hrest)
    | true =>
      cases hblank : Text.isBlank c with
      | false =>
        rw [writeBareChar_escape hstructural (Or.inl hblank)]
        have hline : c ≠ '\n' := by rintro rfl; exact absurd hblank (by decide)
        exact .step hgap (.escape hline) (ih [] (by simp) (fun _ => rfl) hrest)
      | true =>
        cases cs with
        | nil =>
          rw [List.isEmpty_nil, writeBareChar_escape hstructural (Or.inr rfl)]
          have hline : c ≠ '\n' := by simpa using hlast
          exact .step hgap (.escape hline) .nil
        | cons d cs =>
          rw [List.isEmpty_cons, writeBareChar_blank hblank]
          cases hcgap : Lexeme.isGap c with
          | false =>
            exact .step hgap (Lexeme.step_of_isBlank hblank hcgap)
              (ih [] (by simp) (fun _ => rfl) hrest)
          | true =>
            -- the blank is written as it is, and waits for the step after it
            have hmore := ih (gap ++ [c])
              (by
                intro e he
                rcases List.mem_append.1 he with he | he
                · exact hgap e he
                · rw [List.mem_singleton.1 he]; exact hcgap)
              (fun hnil => by cases hnil) hrest
            simpa using hmore
  | @pair c cs hc _ ih =>
    intro gap hgap _ hlast
    have hrest := getLast?_ne_of_cons (getLast?_ne_of_cons hlast)
    have hline : c ≠ '\n' := by rintro rfl; exact absurd hc (by decide)
    rw [writeBareRest_pair hc]
    exact .step hgap (.escape hline) (ih [] (by simp) (fun _ => rfl) hrest)

/-- A bare text that is written starts with a step. -/
theorem exists_step_writeBare {cs : List Char} (hpaired : Paired cs) (hedged : Edged cs) :
    ∃ u raw, Lexeme.Step u ∧ Trail raw ∧ writeBare cs = u ++ raw := by
  have htrail : ∀ {tail : List Char}, Paired tail → tail.getLast? ≠ some '\n' →
      Trail (writeBareRest tail) := by
    intro tail htail hlast
    exact trail_writeBareRest htail [] (by simp) (fun _ => rfl) hlast
  cases hpaired with
  | nil => exact absurd rfl hedged.nonempty
  | @plain c cs hc h =>
    refine ⟨writeBareChar true c, writeBareRest cs, ?_, htrail h (getLast?_ne_of_cons hedged.last),
      rfl⟩
    cases hstructural : isStructural c with
    | false =>
      rw [writeBareChar_plain hstructural]
      exact Lexeme.step_of_not_structural hc hstructural
    | true =>
      rw [writeBareChar_escape hstructural (Or.inr rfl)]
      exact .escape (by simpa using hedged.head)
  | @pair c cs hc h =>
    refine ⟨['\\', c], writeBareRest cs, .escape ?_,
      htrail h (getLast?_ne_of_cons (getLast?_ne_of_cons hedged.last)), writeBare_pair hc cs⟩
    rintro rfl
    exact absurd hc (by decide)

namespace Spells

variable {depth : Nat} {rest : List Char} {kinds : List Kind}

/-- A bare text goes on to its end. -/
theorem trail {raw : List Char} (hraw : Trail raw) (hstops : Stops depth rest)
    (h : Spells depth none rest kinds) (chars : List Char) :
    Spells depth (some chars) (raw ++ rest)
      (.text (String.ofList (unescape (chars ++ raw))) none :: kinds) := by
  induction hraw generalizing chars with
  | nil => rw [List.append_nil]; exact Spells.flush hstops h
  | @step gap u cs hgap hu _ ih =>
    have hnext := ih (chars ++ gap ++ u)
    simp only [List.append_assoc] at hnext ⊢
    exact Spells.extend hgap hu (by simpa only [List.append_assoc] using hnext)

/-- A bare text that is written is read as the text. -/
theorem bare {cs : List Char} (h : Spells depth none rest kinds) (hstops : Stops depth rest)
    (hpaired : Paired cs) (hedged : Edged cs) :
    Spells depth none (writeBare cs ++ rest) (.text (String.ofList cs) none :: kinds) := by
  obtain ⟨u, raw, hu, hraw, hwrite⟩ := exists_step_writeBare hpaired hedged
  have hread := trail hraw hstops h u
  rw [← hwrite, unescape_writeBare hpaired hedged.nonempty] at hread
  rw [hwrite, List.append_assoc]
  exact Spells.start hu hread

/-- A text that is written in quotes is read as the text with its escapes undone. -/
theorem writeQuoted {q : Quote} {cs : List Char} (h : Spells depth none rest kinds)
    (hcs : Quotable q cs) :
    Spells depth none (Term.writeQuoted q cs ++ rest)
      (.text (String.ofList (unescape cs)) (some q) :: kinds) := by
  have hword := Spells.quoted h (quotedStretch_quotedChars hcs rest)
  rw [unescape_quotedChars hcs] at hword
  simpa [writeQuoted_eq] using hword

/-- A word of a term that is written is read as the word. -/
theorem word {text : String} {quote : Option Quote} (h : Spells depth none rest kinds)
    (hstops : Stops depth rest) (hproper : Proper text quote) :
    Spells depth none (writeWord text quote ++ rest) (.text text quote :: kinds) := by
  cases quote with
  | none =>
    have hword := bare h hstops hproper.1 hproper.2
    rwa [String.ofList_toList] at hword
  | some q =>
    have hword := writeQuoted h (hproper.quotable q)
    rwa [hproper.unescape_eq, String.ofList_toList] at hword

end Spells

end Token
end ResourceQuery

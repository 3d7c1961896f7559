import ResourceQuery.Proofs.Token.Spelling

set_option autoImplicit false

/-!
# Lexemes: the longest match

Each kind of lexeme is a regular language of its own, `Kind.Matches`, which says
nothing of how lexemes are found.  The first lexeme of a source is the longest
stretch at its start that matches any of them, and there is none when no stretch
matches.

The scanner takes what it meets first and never goes back.  That this is the
longest match is because the languages of the kinds differ in their first
characters, and within a kind a stretch ends only where it has to.
-/

namespace ResourceQuery

theorem Quote.ofChar?_char (q : Quote) : Quote.ofChar? q.char = some q := by
  cases q <;> decide

theorem Quote.eq_char_of_ofChar? {c : Char} {q : Quote} (h : Quote.ofChar? c = some q) :
    c = q.char := by
  unfold Quote.ofChar? at h
  split at h
  · next hc => cases h; exact hc
  · split at h
    · next hc => cases h; exact hc
    · cases h

theorem Quote.char_ne_backslash (q : Quote) : q.char ≠ '\\' := by
  cases q <;> decide

namespace Lexeme

/-! ## The languages of the kinds -/

/-- What stands between two quotes: `([^q\\]|\\.)*`. -/
inductive Enclosed (q : Char) : List Char → Prop where
  | nil : Enclosed q []
  | plain {c : Char} {cs : List Char} (hquote : c ≠ q) (hback : c ≠ '\\') (h : Enclosed q cs) :
      Enclosed q (c :: cs)
  | escape {c : Char} {cs : List Char} (hline : c ≠ '\n') (h : Enclosed q cs) :
      Enclosed q ('\\' :: c :: cs)

/-- Steps of a bare stretch in a row: `([^ \t\r\n\f(),='"\\]|\\.)*`. -/
inductive Steps : List Char → Prop where
  | nil : Steps []
  | cons {u cs : List Char} (hu : Step u) (h : Steps cs) : Steps (u ++ cs)

/-- The characters make up a lexeme of the kind. -/
def Kind.Matches : Kind → List Char → Prop
  | .opening, cs => cs = ['(']
  | .closing, cs => cs = [')']
  | .comma, cs => cs = [',']
  | .equals, cs => cs = ['=']
  | .quoted q, cs => ∃ inner, cs = q.char :: (inner ++ [q.char]) ∧ Enclosed q.char inner
  | .bare, cs => cs ≠ [] ∧ Steps cs

theorem Step.ne_nil {u : List Char} (h : Step u) : u ≠ [] := by
  cases h <;> simp

theorem Step.matches {u : List Char} (h : Step u) : Kind.bare.Matches u := by
  refine ⟨h.ne_nil, ?_⟩
  rw [← List.append_nil u]
  exact .cons h .nil

theorem Kind.Matches.ne_nil {kind : Kind} {body : List Char} (h : kind.Matches body) :
    body ≠ [] := by
  cases kind with
  | opening | closing | comma | equals => rw [show body = _ from h]; simp
  | quoted q =>
    obtain ⟨inner, rfl, _⟩ := h
    simp
  | bare => exact h.1

/-! ## Stretches -/

theorem quotedStretch_plain {q c : Char} (hquote : c ≠ q) (hback : c ≠ '\\') (cs : List Char) :
    quotedStretch q (c :: cs) = (quotedStretch q cs).map fun p => (c :: p.1, p.2) := by
  rw [quotedStretch, if_neg hquote]
  exact fun h => hback h

theorem quotedStretch_escape {c : Char} (hline : c ≠ '\n') (q : Char) (cs : List Char) :
    quotedStretch q ('\\' :: c :: cs) =
      (quotedStretch q cs).map fun p => ('\\' :: c :: p.1, p.2) := by
  rw [quotedStretch, if_neg hline]

theorem enclosed_of_quotedStretch {q : Char} {cs body rest : List Char}
    (h : quotedStretch q cs = some (body, rest)) :
    ∃ inner, body = inner ++ [q] ∧ Enclosed q inner := by
  fun_induction quotedStretch q cs generalizing body rest with
  | case1 => cases h
  | case2 => cases h
  | case3 => cases h
  | case4 c tail hline ih =>
    obtain ⟨⟨b, r⟩, hb, he⟩ := Option.map_eq_some_iff.1 h
    obtain ⟨inner, rfl, hinner⟩ := ih hb
    cases he
    exact ⟨'\\' :: c :: inner, rfl, .escape hline hinner⟩
  | case5 => cases h; exact ⟨[], rfl, .nil⟩
  | case6 c tail hback hquote ih =>
    obtain ⟨⟨b, r⟩, hb, he⟩ := Option.map_eq_some_iff.1 h
    obtain ⟨inner, rfl, hinner⟩ := ih hb
    cases he
    exact ⟨c :: inner, rfl, .plain hquote (fun h => hback h) hinner⟩

/-- A quoted stretch ends at the first quote that is not escaped. -/
theorem quotedStretch_of_enclosed {q : Char} (hq : q ≠ '\\') {inner : List Char}
    (h : Enclosed q inner) (rest : List Char) :
    quotedStretch q (inner ++ q :: rest) = some (inner ++ [q], rest) := by
  induction h with
  | nil =>
    rw [List.nil_append, quotedStretch, if_pos rfl]
    · rfl
    · exact fun h => hq h
  | plain hquote hback _ ih => rw [List.cons_append, quotedStretch_plain hquote hback, ih]; rfl
  | escape hline _ ih =>
    rw [List.cons_append, List.cons_append, quotedStretch_escape hline, ih]
    rfl

theorem steps_bareStretch (cs : List Char) : Steps (bareStretch cs).1 := by
  fun_induction bareStretch cs with
  | case1 => exact .nil
  | case2 => exact .nil
  | case3 => exact .nil
  | case4 c rest hline body tail heq ih =>
    rw [heq] at ih
    exact .cons (.escape hline) ih
  | case5 => exact .nil
  | case6 c cs _ hstop body rest heq ih =>
    rw [heq] at ih
    simp only [Bool.or_eq_true, not_or, Bool.not_eq_true] at hstop
    exact .cons (.plain hstop.1 hstop.2) ih

/-- A bare stretch goes on over steps in a row. -/
theorem bareStretch_of_steps {body : List Char} (h : Steps body) (rest : List Char) :
    bareStretch (body ++ rest) = (body ++ (bareStretch rest).1, (bareStretch rest).2) := by
  induction h with
  | nil => rfl
  | cons hu _ ih => rw [List.append_assoc, bareStretch_step hu, ih, List.append_assoc]

/-! ## The first lexeme -/

/-- The first lexeme matches its kind. -/
theorem matches_of_first? {cs body rest : List Char} {kind : Kind}
    (h : first? cs = some (kind, body, rest)) : kind.Matches body := by
  cases cs with
  | nil => cases h
  | cons c cs =>
    rw [first?] at h
    iterate 4
      split at h
      · next hc => cases h; rw [hc]; rfl
    split at h
    · next q hq =>
      obtain ⟨⟨b, r⟩, hb, he⟩ := Option.map_eq_some_iff.1 h
      obtain ⟨inner, rfl, hinner⟩ := enclosed_of_quotedStretch hb
      cases he
      obtain rfl := Quote.eq_char_of_ofChar? hq
      exact ⟨inner, rfl, hinner⟩
    · have hsteps := steps_bareStretch (c :: cs)
      split at h
      · cases h
      · next body' rest' hne heq =>
        cases h
        rw [heq] at hsteps
        exact ⟨fun hnil => hne (by rw [hnil]), hsteps⟩

/-- A stretch that matches is the beginning of the first lexeme, which is of the same kind. -/
theorem first?_of_matches {kind : Kind} {body : List Char} (h : kind.Matches body)
    (rest : List Char) :
    ∃ more after, rest = more ++ after ∧
      first? (body ++ rest) = some (kind, body ++ more, after) := by
  cases kind with
  | opening | closing | comma | equals =>
    rw [show body = _ from h]
    exact ⟨[], rest, rfl, rfl⟩
  | quoted q =>
    obtain ⟨inner, rfl, hinner⟩ := h
    have hstretch := quotedStretch_of_enclosed q.char_ne_backslash hinner rest
    refine ⟨[], rest, rfl, ?_⟩
    cases q <;> simp [first?, Quote.ofChar?, Quote.char] at hstretch ⊢ <;> exact hstretch
  | bare =>
    have hstretch := bareStretch_of_steps h.2 rest
    refine ⟨(bareStretch rest).1, (bareStretch rest).2, (bareStretch_append rest).symm, ?_⟩
    rw [first?_of_bareStretch, hstretch]
    rw [hstretch]
    simp [h.1]

/-- No lexeme starts where no stretch matches. -/
theorem first?_eq_none_iff {cs : List Char} :
    first? cs = none ↔
      ∀ (kind : Kind) (body rest : List Char), cs = body ++ rest → ¬ kind.Matches body := by
  constructor
  · rintro hnone kind body rest rfl hmatches
    obtain ⟨more, after, _, hfirst⟩ := first?_of_matches hmatches rest
    rw [hnone] at hfirst
    cases hfirst
  · intro h
    cases hfirst : first? cs with
    | none => rfl
    | some lexeme =>
      obtain ⟨kind, body, rest⟩ := lexeme
      exact absurd (matches_of_first? hfirst) (h kind body rest (first?_eq hfirst).1.symm)

/-- The first lexeme is the longest stretch that matches. -/
theorem first?_eq_some_iff {cs body rest : List Char} {kind : Kind} :
    first? cs = some (kind, body, rest) ↔ cs = body ++ rest ∧ kind.Matches body ∧
      ∀ (kind' : Kind) (body' rest' : List Char), cs = body' ++ rest' → kind'.Matches body' →
        body'.length ≤ body.length := by
  constructor
  · intro hfirst
    refine ⟨(first?_eq hfirst).1.symm, matches_of_first? hfirst, ?_⟩
    rintro kind' body' rest' rfl hmatches
    obtain ⟨more, after, _, hother⟩ := first?_of_matches hmatches rest'
    rw [hfirst] at hother
    simp only [Option.some.injEq, Prod.mk.injEq] at hother
    rw [hother.2.1, List.length_append]
    exact Nat.le_add_right _ _
  · rintro ⟨rfl, hmatches, hlongest⟩
    obtain ⟨more, after, rfl, hfirst⟩ := first?_of_matches hmatches rest
    have hlength := hlongest kind (body ++ more) after (by rw [List.append_assoc])
      (matches_of_first? hfirst)
    have hmore : more = [] := by
      rw [List.length_append] at hlength
      exact List.length_eq_zero_iff.1 (by omega)
    subst hmore
    rwa [List.append_nil] at hfirst

/-! ## The lexemes of a source -/

theorem scan_blank {gap : List Char} (hgap : ∀ c ∈ gap, isGap c = true) (position : Nat) :
    scan position gap = ([], none) := by
  have hdrop : gap.dropWhile isGap = [] := by
    rw [← List.append_nil gap, List.dropWhile_append_of_pos hgap]
    rfl
  rw [scan]
  split
  · rfl
  · next hcons => rw [hdrop] at hcons; cases hcons

theorem scan_fault {gap : List Char} (hgap : ∀ c ∈ gap, isGap c = true) {c : Char}
    (hc : isGap c = false) {cs : List Char} (hfirst : first? (c :: cs) = none) (position : Nat) :
    scan position (gap ++ c :: cs) =
      ([], some (faultAt (position + byteLength gap) (c :: cs))) := by
  have htake : (gap ++ c :: cs).takeWhile isGap = gap := by
    rw [List.takeWhile_append_of_pos hgap, List.takeWhile_cons_of_neg (by simp [hc]),
      List.append_nil]
  have hdrop : (gap ++ c :: cs).dropWhile isGap = c :: cs := by
    rw [List.dropWhile_append_of_pos hgap, List.dropWhile_cons_of_neg (by simp [hc])]
  rw [scan, htake]
  split
  · next hnil => rw [hdrop] at hnil; cases hnil
  · next c' tail hcons =>
    rw [hdrop] at hcons
    cases hcons
    split
    · rfl
    · next hsome => rw [hfirst] at hsome; cases hsome

/-- Induction along the lexemes of a source: it holds only blanks, or it comes
to a place where no lexeme starts, or it starts with a lexeme. -/
theorem scan_induction {motive : Nat → List Char → Prop}
    (blank : ∀ (position : Nat) (gap : List Char), (∀ c ∈ gap, isGap c = true) →
      motive position gap)
    (fault : ∀ (position : Nat) (gap : List Char) (c : Char) (cs : List Char),
      (∀ c ∈ gap, isGap c = true) → isGap c = false → first? (c :: cs) = none →
      motive position (gap ++ c :: cs))
    (lexeme : ∀ (position : Nat) (gap cs : List Char) (kind : Kind) (body rest : List Char),
      (∀ c ∈ gap, isGap c = true) → first? cs = some (kind, body, rest) →
      motive (position + byteLength gap + byteLength body) rest → motive position (gap ++ cs))
    (position : Nat) (cs : List Char) : motive position cs := by
  have hgap : ∀ c ∈ cs.takeWhile isGap, isGap c = true := List.all_eq_true.1 List.all_takeWhile
  have hsplit : cs.takeWhile isGap ++ cs.dropWhile isGap = cs := List.takeWhile_append_dropWhile
  cases hdrop : cs.dropWhile isGap with
  | nil =>
    rw [hdrop, List.append_nil] at hsplit
    rw [hsplit] at hgap
    exact blank position cs hgap
  | cons c tail =>
    have hc : isGap c = false := by
      have hhead := List.head?_dropWhile_not isGap cs
      rw [hdrop] at hhead
      simpa using hhead
    rw [hdrop] at hsplit
    cases hfirst : first? (c :: tail) with
    | none =>
      rw [← hsplit]
      exact fault position _ c tail hgap hc hfirst
    | some found =>
      obtain ⟨kind, body, rest⟩ := found
      -- the lexeme is not empty, so what is left is shorter
      have hshorter : rest.length < cs.length := by
        obtain ⟨happ, hne⟩ := first?_eq hfirst
        have hsum := congrArg List.length hsplit
        rw [List.length_append, ← happ, List.length_append] at hsum
        have hpos := List.length_pos_iff.2 hne
        omega
      rw [← hsplit]
      exact lexeme position _ _ kind body rest hgap hfirst
        (scan_induction blank fault lexeme _ rest)
termination_by cs.length

end Lexeme

/-! ## The end of a stream of tokens -/

namespace Token

open Lexeme (isGap byteLength)

theorem streamFrom_blank {gap : List Char} (hgap : ∀ c ∈ gap, isGap c = true)
    (position depth : Nat) (run : Option Run) :
    streamFrom position depth run gap = Run.emit run ([], none) := by
  rw [streamFrom, Lexeme.scan_blank hgap]
  cases run <;> rfl

/-- The text under way is given up where no lexeme starts. -/
theorem streamFrom_fault {gap : List Char} (hgap : ∀ c ∈ gap, isGap c = true) {c : Char}
    (hc : isGap c = false) {cs : List Char} (hfirst : Lexeme.first? (c :: cs) = none)
    (position depth : Nat) (run : Option Run) :
    streamFrom position depth run (gap ++ c :: cs) =
      ([], some (Lexeme.faultAt (position + byteLength gap) (c :: cs))) := by
  rw [streamFrom, Lexeme.scan_fault hgap hc hfirst]
  cases run <;> rfl

end Token
end ResourceQuery

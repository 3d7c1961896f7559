import ResourceQuery.Fragment.Split
import ResourceQuery.Proofs.Token.Proper

set_option autoImplicit false

/-!
# Fragments: dividing a query string

A query string is divided at each `&` outside quotes and escapes.  The divider
and the lexemes of a fragment agree on where quotes are open, so no word of a
fragment that stands without quotes holds an `&` that would divide it.

`Crosses` follows the divider along characters that it does not divide, from the
quote that is open before them to the one behind.  It is closed under
concatenation, and lexemes are such characters, so the divider can be followed
lexeme by lexeme.
-/

namespace ResourceQuery

namespace Fragment

/-! ## The divider -/

/-- The quote that is open after a character outside quotes. -/
def opened (c : Char) : Option Char := if c = '\'' ∨ c = '"' then some c else none

/-- The characters are read without a division, from the one open quote to the other. -/
inductive Crosses : Option Char → List Char → Option Char → Prop where
  | nil (quote : Option Char) : Crosses quote [] quote
  | escape {quote after : Option Char} {c : Char} {cs : List Char} (h : Crosses quote cs after) :
      Crosses quote ('\\' :: c :: cs) after
  | inside {q c : Char} {after : Option Char} {cs : List Char} (hc : c ≠ '\\')
      (h : Crosses (if c = q then none else some q) cs after) : Crosses (some q) (c :: cs) after
  | outside {c : Char} {after : Option Char} {cs : List Char} (hc : c ≠ '\\') (hamp : c ≠ '&')
      (h : Crosses (opened c) cs after) : Crosses none (c :: cs) after

/-- An escape takes its character along, in quotes and outside. -/
theorem divideChars_escape (quote : Option Char) (piece : List Char) (c : Char) (cs : List Char) :
    divideChars quote piece ('\\' :: c :: cs) = divideChars quote (c :: '\\' :: piece) cs := by
  rw [divideChars]

/-- In quotes only the quote itself means something. -/
theorem divideChars_inside {c : Char} (hc : c ≠ '\\') (q : Char) (piece cs : List Char) :
    divideChars (some q) piece (c :: cs) =
      divideChars (if c = q then none else some q) (c :: piece) cs := by
  rw [divideChars]
  exact fun h => hc h

theorem divideChars_outside {c : Char} (hc : c ≠ '\\') (hamp : c ≠ '&') (piece cs : List Char) :
    divideChars none piece (c :: cs) = divideChars (opened c) (c :: piece) cs := by
  rw [divideChars, if_neg hamp]
  · rfl
  · exact fun h => hc h

/-- An `&` outside quotes divides. -/
theorem divideChars_amp (piece cs : List Char) :
    divideChars none piece ('&' :: cs) = piece.reverse :: divideChars none [] cs := by
  rw [divideChars, if_pos rfl]
  exact fun h => by cases h

/-- Characters that are crossed one behind the other. -/
theorem Crosses.append {quote mid after : Option Char} {a b : List Char}
    (h : Crosses quote a mid) (h' : Crosses mid b after) : Crosses quote (a ++ b) after := by
  induction h with
  | nil quote => exact h'
  | escape _ ih => exact .escape (ih h')
  | inside hc _ ih => exact .inside hc (ih h')
  | outside hc hamp _ ih => exact .outside hc hamp (ih h')

/-! ## Pieces -/

/-- No `&` divides the characters; they may end in a lone backslash. -/
inductive Whole : Option Char → List Char → Prop where
  | nil (quote : Option Char) : Whole quote []
  | lone (quote : Option Char) : Whole quote ['\\']
  | escape {quote : Option Char} {c : Char} {cs : List Char} (h : Whole quote cs) :
      Whole quote ('\\' :: c :: cs)
  | inside {q c : Char} {cs : List Char} (hc : c ≠ '\\')
      (h : Whole (if c = q then none else some q) cs) : Whole (some q) (c :: cs)
  | outside {c : Char} {cs : List Char} (hc : c ≠ '\\') (hamp : c ≠ '&')
      (h : Whole (opened c) cs) : Whole none (c :: cs)

theorem Crosses.whole {quote mid : Option Char} {a b : List Char} (h : Crosses quote a mid)
    (h' : Whole mid b) : Whole quote (a ++ b) := by
  induction h with
  | nil quote => exact h'
  | escape _ ih => exact .escape (ih h')
  | inside hc _ ih => exact .inside hc (ih h')
  | outside hc hamp _ ih => exact .outside hc hamp (ih h')

/-- What is not divided as a whole is not divided in its first part. -/
theorem Whole.of_append {quote : Option Char} {cs : List Char} (h : Whole quote cs) :
    ∀ {a b : List Char}, cs = a ++ b → Whole quote a := by
  induction h with
  | nil quote =>
    intro a b heq
    rw [(List.append_eq_nil_iff.1 heq.symm).1]
    exact .nil quote
  | lone quote =>
    intro a b heq
    rcases List.cons_eq_append_iff.1 heq with ⟨rfl, _⟩ | ⟨a', rfl, hrest⟩
    · exact .nil quote
    · rw [(List.append_eq_nil_iff.1 hrest.symm).1]
      exact .lone quote
  | escape _ ih =>
    intro a b heq
    rcases List.cons_eq_append_iff.1 heq with ⟨rfl, _⟩ | ⟨a', rfl, hrest⟩
    · exact .nil _
    · rcases List.cons_eq_append_iff.1 hrest with ⟨rfl, _⟩ | ⟨a'', rfl, hrest'⟩
      · exact .lone _
      · exact .escape (ih hrest')
  | inside hc _ ih =>
    intro a b heq
    rcases List.cons_eq_append_iff.1 heq with ⟨rfl, _⟩ | ⟨a', rfl, hrest⟩
    · exact .nil _
    · exact .inside hc (ih hrest)
  | outside hc hamp _ ih =>
    intro a b heq
    rcases List.cons_eq_append_iff.1 heq with ⟨rfl, _⟩ | ⟨a', rfl, hrest⟩
    · exact .nil _
    · exact .outside hc hamp (ih hrest)

/-- What is crossed next goes in front of a piece that is held backwards. -/
theorem Crosses.append_reverse {quote after : Option Char} {piece : List Char}
    (h : Crosses none piece.reverse quote) (more : List Char)
    (h' : Crosses quote more.reverse after) : Crosses none (more ++ piece).reverse after := by
  rw [List.reverse_append]
  exact h.append h'

/-- The pieces are not divided any further. -/
theorem whole_of_mem_divideChars (quote : Option Char) (piece cs : List Char) :
    Crosses none piece.reverse quote → ∀ p ∈ divideChars quote piece cs, Whole none p := by
  fun_induction divideChars quote piece cs with
  | case1 quote piece =>
    intro h p hp
    rw [List.mem_singleton.1 hp]
    simpa using h.whole (.nil quote)
  | case2 quote piece =>
    intro h p hp
    rw [List.mem_singleton.1 hp, List.reverse_cons]
    exact h.whole (.lone quote)
  | case3 quote piece c rest ih => exact fun h => ih (h.append_reverse [c, '\\'] (.escape (.nil _)))
  | case4 piece q c cs hc ih =>
    exact fun h => ih (h.append_reverse [c] (.inside hc (.nil _)))
  | case5 piece cs hc ih =>
    intro h p hp
    rcases List.mem_cons.1 hp with rfl | hp
    · simpa using h.whole (.nil none)
    · exact ih (.nil none) p hp
  | case6 piece c cs hc hamp ih =>
    exact fun h => ih (h.append_reverse [c] (.outside hc hamp (.nil _)))

/-- To the divider a blank is an ordinary character. -/
theorem opened_of_isBlank {c : Char} (h : Text.isBlank c = true) :
    c ≠ '\\' ∧ c ≠ '&' ∧ opened c = none := by
  have hne : ∀ d : Char, Text.isBlank d = false → c ≠ d := by
    rintro d hd rfl
    rw [h] at hd
    cases hd
  refine ⟨hne _ (by decide), hne _ (by decide), if_neg ?_⟩
  rintro (hc | hc)
  · exact hne _ (by decide) hc
  · exact hne _ (by decide) hc

theorem Whole.of_blank {c : Char} {cs : List Char} (h : Whole none (c :: cs))
    (hblank : Text.isBlank c = true) : Whole none cs := by
  obtain ⟨hc, _, hopened⟩ := opened_of_isBlank hblank
  cases h with
  | lone => exact absurd rfl hc
  | escape => exact absurd rfl hc
  | outside _ _ h => rwa [hopened] at h

theorem Whole.dropWhile {p : Char → Bool} (hp : ∀ c, p c = true → Text.isBlank c = true)
    {cs : List Char} (h : Whole none cs) : Whole none (cs.dropWhile p) := by
  induction cs with
  | nil => exact h
  | cons c cs ih =>
    rw [List.dropWhile_cons]
    split
    · next hc => exact ih (h.of_blank (hp c hc))
    · exact h

theorem Whole.trimChars {cs : List Char} (h : Whole none cs) :
    Whole none (Text.trimChars cs) := by
  have hdrop := h.dropWhile (p := Text.isBlank) fun _ hc => hc
  obtain ⟨dropped, hdropped⟩ :=
    List.dropWhile_suffix Text.isBlank (l := (cs.dropWhile Text.isBlank).reverse)
  refine hdrop.of_append (b := dropped.reverse) ?_
  rw [Text.trimChars, ← List.reverse_append, hdropped, List.reverse_reverse]

/-- No `&` divides a fragment of a query string. -/
theorem whole_of_mem_split {text fragment : String} (h : fragment ∈ split text) :
    Whole none fragment.toList := by
  obtain ⟨cs, hcs, hfragment⟩ := List.mem_filterMap.1 h
  obtain ⟨piece, hpiece, rfl⟩ := List.mem_map.1 hcs
  split at hfragment
  · cases hfragment
  · cases hfragment
    rw [String.toList_ofList]
    exact (whole_of_mem_divideChars none [] _ (.nil none) piece hpiece).trimChars

/-! ## Words of fragments -/

/-- Every `&` stands after a backslash that takes it with it. -/
inductive Unbroken : List Char → Prop where
  | nil : Unbroken []
  | plain {c : Char} {cs : List Char} (hc : c ≠ '\\') (hamp : c ≠ '&') (h : Unbroken cs) :
      Unbroken (c :: cs)
  | escape {c : Char} {cs : List Char} (h : Unbroken cs) : Unbroken ('\\' :: c :: cs)

theorem Unbroken.append {a b : List Char} (ha : Unbroken a) (hb : Unbroken b) :
    Unbroken (a ++ b) := by
  induction ha with
  | nil => exact hb
  | plain hc hamp _ ih => exact .plain hc hamp ih
  | escape _ ih => exact .escape ih

theorem Unbroken.of_gap {gap : List Char} (h : ∀ c ∈ gap, Lexeme.isGap c = true) :
    Unbroken gap := by
  induction gap with
  | nil => exact .nil
  | cons c gap ih =>
    obtain ⟨hc, hamp, _⟩ := opened_of_isBlank (Lexeme.isBlank_of_isGap (h c List.mem_cons_self))
    exact .plain hc hamp (ih fun d hd => h d (List.mem_cons_of_mem c hd))

/-- Undoing escapes breaks nothing: an `&` is not structural, so it keeps the
backslash in front of it. -/
theorem Unbroken.unescape {cs : List Char} (h : Unbroken cs) : Unbroken (Token.unescape cs) := by
  induction h with
  | nil => exact .nil
  | plain hc hamp _ ih =>
    rw [Token.unescape_plain hc]
    exact .plain hc hamp ih
  | @escape c cs _ ih =>
    cases hstructural : Token.isStructural c with
    | false =>
      rw [Token.unescape_pair hstructural]
      exact .escape ih
    | true =>
      rw [Token.unescape_structural hstructural]
      refine .plain ?_ ?_ ih
      · rintro rfl
        exact absurd hstructural (by decide)
      · rintro rfl
        exact absurd hstructural (by decide)

/-- A bare stretch is unbroken, and the divider is outside quotes behind it. -/
theorem Whole.bareStretch (cs : List Char) : Whole none cs →
    Unbroken (Lexeme.bareStretch cs).1 ∧ Crosses none (Lexeme.bareStretch cs).1 none ∧
      Whole none (Lexeme.bareStretch cs).2 := by
  fun_induction Lexeme.bareStretch cs with
  | case1 => exact fun h => ⟨.nil, .nil none, h⟩
  | case2 => exact fun h => ⟨.nil, .nil none, h⟩
  | case3 => exact fun h => ⟨.nil, .nil none, h⟩
  | case4 c rest _ body tail heq ih =>
    intro h
    cases h with
    | escape h =>
      obtain ⟨hbody, hcrosses, hrest⟩ := ih h
      rw [heq] at hbody hcrosses hrest
      exact ⟨.escape hbody, .escape hcrosses, hrest⟩
    | outside hc => exact absurd rfl hc
  | case5 => exact fun h => ⟨.nil, .nil none, h⟩
  | case6 c cs hc hstop body rest heq ih =>
    intro h
    have hopened : opened c = none := by
      refine if_neg ?_
      rintro (rfl | rfl)
      · exact hstop (by decide)
      · exact hstop (by decide)
    cases h with
    | lone => exact absurd rfl hc
    | escape => exact absurd rfl hc
    | outside _ hamp h =>
      rw [hopened] at h
      obtain ⟨hbody, hcrosses, hrest⟩ := ih h
      rw [heq] at hbody hcrosses hrest
      refine ⟨.plain (fun h => hc h) hamp hbody, .outside (fun h => hc h) hamp ?_, hrest⟩
      rwa [hopened]

/-- The divider is outside quotes behind a quoted stretch. -/
theorem Whole.quotedStretch (q : Char) (cs : List Char) :
    ∀ {body rest : List Char}, Lexeme.quotedStretch q cs = some (body, rest) →
      Whole (some q) cs → Crosses (some q) body none ∧ Whole none rest := by
  fun_induction Lexeme.quotedStretch q cs with
  | case1 => exact fun h => by cases h
  | case2 => exact fun h => by cases h
  | case3 => exact fun h => by cases h
  | case4 c tail _ ih =>
    intro body rest h hwhole
    obtain ⟨⟨b, r⟩, hb, he⟩ := Option.map_eq_some_iff.1 h
    cases he
    cases hwhole with
    | escape hwhole => exact (ih hb hwhole).imp_left .escape
    | inside hc => exact absurd rfl hc
  | case5 cs hc =>
    intro body rest h hwhole
    cases h
    cases hwhole with
    | lone => exact absurd rfl hc
    | escape => exact absurd rfl hc
    | inside _ hwhole =>
      rw [if_pos rfl] at hwhole
      refine ⟨.inside (fun h => hc h) ?_, hwhole⟩
      rw [if_pos rfl]
      exact .nil none
  | case6 c cs hc hq ih =>
    intro body rest h hwhole
    obtain ⟨⟨b, r⟩, hb, he⟩ := Option.map_eq_some_iff.1 h
    cases he
    cases hwhole with
    | lone => exact absurd rfl hc
    | escape => exact absurd rfl hc
    | inside _ hwhole =>
      rw [if_neg hq] at hwhole
      obtain ⟨hcrosses, hrest⟩ := ih hb hwhole
      refine ⟨.inside (fun h => hc h) ?_, hrest⟩
      rwa [if_neg hq]

/-- The divider is outside quotes behind each lexeme. -/
theorem Whole.first? {cs body rest : List Char} {kind : Lexeme.Kind}
    (h : Lexeme.first? cs = some (kind, body, rest)) (hwhole : Whole none cs) :
    Crosses none body none ∧ Whole none rest ∧
      (kind = .bare ∨ kind = .equals → Unbroken body) := by
  cases cs with
  | nil => cases h
  | cons c cs =>
    -- a mark neither escapes, divides nor opens quotes, so it leaves the divider where it was
    have hmark : c ≠ '\\' → c ≠ '&' → opened c = none →
        Crosses none [c] none ∧ Whole none cs := by
      intro hc hamp hopened
      cases hwhole with
      | lone => exact absurd rfl hc
      | escape => exact absurd rfl hc
      | outside _ _ h =>
        refine ⟨.outside hc hamp ?_, ?_⟩
        · rw [hopened]
          exact .nil none
        · rwa [hopened] at h
    rw [Lexeme.first?] at h
    split at h
    · next hc =>
      subst hc
      cases h
      obtain ⟨hcrosses, hrest⟩ := hmark (by decide) (by decide) rfl
      exact ⟨hcrosses, hrest, by simp⟩
    split at h
    · next hc =>
      subst hc
      cases h
      obtain ⟨hcrosses, hrest⟩ := hmark (by decide) (by decide) rfl
      exact ⟨hcrosses, hrest, by simp⟩
    split at h
    · next hc =>
      subst hc
      cases h
      obtain ⟨hcrosses, hrest⟩ := hmark (by decide) (by decide) rfl
      exact ⟨hcrosses, hrest, by simp⟩
    split at h
    · next hc =>
      subst hc
      cases h
      obtain ⟨hcrosses, hrest⟩ := hmark (by decide) (by decide) rfl
      exact ⟨hcrosses, hrest, fun _ => .plain (by decide) (by decide) .nil⟩
    split at h
    · next q hq =>
      obtain ⟨⟨b, r⟩, hb, he⟩ := Option.map_eq_some_iff.1 h
      cases he
      have hc := Quote.eq_char_of_ofChar? hq
      have hback : c ≠ '\\' := by rw [hc]; cases q <;> decide
      have hopened : opened c = some c := by rw [hc]; cases q <;> rfl
      cases hwhole with
      | lone => exact absurd rfl hback
      | escape => exact absurd rfl hback
      | outside _ hamp hwhole =>
        rw [hopened] at hwhole
        obtain ⟨hcrosses, hrest⟩ := Whole.quotedStretch _ _ hb hwhole
        rw [← hopened] at hcrosses
        exact ⟨.outside hback hamp hcrosses, hrest, by simp⟩
    · obtain ⟨hbody, hcrosses, hrest⟩ := Whole.bareStretch (c :: cs) hwhole
      split at h
      · cases h
      · next heq =>
        cases h
        rw [heq] at hbody hcrosses hrest
        exact ⟨hcrosses, hrest, fun _ => hbody⟩

/-- The bare stretches among the lexemes of a fragment are unbroken. -/
theorem unbroken_scan (position : Nat) (cs : List Char) : Whole none cs →
    ∀ lexeme ∈ (Lexeme.scan position cs).1,
      (lexeme.kind = .bare ∨ lexeme.kind = .equals → Unbroken lexeme.body) ∧
        ∀ c ∈ lexeme.gap, Lexeme.isGap c = true := by
  fun_induction Lexeme.scan position cs with
  | case1 position cs hcs => simp
  | case2 position cs gap c tail hcs start hnone => simp
  | case3 position cs gap c tail hcs start kind body rest hsome lexemes fault heq ih =>
    intro hwhole lexeme hmem
    have htail : Whole none (c :: tail) := by
      rw [← hcs]
      exact hwhole.dropWhile fun _ => Lexeme.isBlank_of_isGap
    obtain ⟨_, hrest, hbody⟩ := htail.first? hsome
    rcases List.mem_cons.1 hmem with rfl | hmem
    · exact ⟨hbody, List.all_eq_true.1 List.all_takeWhile⟩
    · rw [heq] at ih
      exact ih hrest lexeme hmem

/-- No word of a fragment that stands without quotes is broken. -/
theorem unbroken_tokenize {source : String} (hwhole : Whole none source.toList)
    {tokens : List Token} (h : Token.tokenize source = .ok tokens) :
    ∀ token ∈ tokens, ∀ text, token.kind = .text text none → Unbroken text.toList := by
  have hscan := unbroken_scan 0 source.toList hwhole
  have hall : ∀ token ∈ (Token.stream source).1, ∀ text, token.kind = .text text none →
      Unbroken text.toList := by
    have hrun : ∀ r : Token.Run, Unbroken r.chars → ∀ text, r.token.kind = .text text none →
        Unbroken text.toList := by
      intro r hr text htext
      cases htext
      rw [String.toList_ofList]
      exact hr.unescape
    refine Token.forall_mem_ofLexemes hrun ?_ _ _ ?_ ?_ 0 0 none (by simp)
    · exact fun kind start stop hkind text htext => absurd htext (hkind text none)
    · intro lexeme hmem hkind run position hrun
      obtain ⟨hbody, hgap⟩ := hscan lexeme hmem
      cases run with
      | none => exact hbody hkind
      | some r => exact ((hrun r rfl).append (.of_gap hgap)).append (hbody hkind)
    · intro lexeme _ q _ start stop text htext
      cases htext
  unfold Token.tokenize at h
  split at h
  · next ts hstream =>
    cases h
    rwa [hstream] at hall
  · cases h

end Fragment
end ResourceQuery

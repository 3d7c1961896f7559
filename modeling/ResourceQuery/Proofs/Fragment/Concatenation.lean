import ResourceQuery.Proofs.Fragment.Joining

set_option autoImplicit false

/-!
# Fragments: query strings one behind the other

A fragment that can be read closes its quotes and completes its escapes.  So
when all fragments of a query string can be read, what follows it behind an `&`
is divided by itself.

The divider and the lexemes are compared once (`crosses_of_scan`); a fragment
that can be read is lexemes to its end, so the divider stands outside quotes
behind it.
-/

namespace ResourceQuery

/-- A fault that ends the lexemes ends the tokens too. -/
theorem Token.fault_of_ofLexemes {fault : Option LexicalFault} (lexemes : List Lexeme) :
    ∀ (position depth : Nat) (run : Option Run),
      (ofLexemes fault position depth run lexemes).2 = none → fault = none := by
  -- a text that ends adds a token, never a fault
  have hemit : ∀ (run : Option Run) (s : Stream), (Run.emit run s).2 = s.2 := by
    intro run s
    cases run with
    | none => rfl
    | some r => rfl
  induction lexemes with
  | nil =>
    intro position depth run h
    cases run with
    | none => exact h
    | some r =>
      cases fault with
      | none => rfl
      | some f => cases h
  | cons lexeme lexemes ih =>
    intro position depth run h
    obtain ⟨kind, gap, body⟩ := lexeme
    rw [ofLexemes_cons] at h
    cases kind with
    | bare => exact ih _ _ _ h
    | opening | quoted =>
      simp only [hemit] at h
      exact ih _ _ _ h
    | equals =>
      cases depth with
      | zero =>
        simp only [hemit] at h
        exact ih _ _ _ h
      | succ depth => exact ih _ _ _ h
    | comma =>
      cases depth with
      | zero | succ =>
        simp only [hemit] at h
        exact ih _ _ _ h
    | closing =>
      cases depth with
      | zero =>
        simp only [hemit] at h
        cases h
      | succ depth =>
        simp only [hemit] at h
        exact ih _ _ _ h

namespace Fragment

/-! ## Fragments that can be read -/

theorem crosses_of_blank {cs : List Char} (h : ∀ c ∈ cs, Text.isBlank c = true) :
    Crosses none cs none := by
  induction cs with
  | nil => exact .nil none
  | cons c cs ih =>
    obtain ⟨hc, hamp, hopened⟩ := opened_of_isBlank (h c List.mem_cons_self)
    refine .outside hc hamp ?_
    rw [hopened]
    exact ih fun d hd => h d (List.mem_cons_of_mem c hd)

/-- The divider is outside quotes behind characters that are lexemes to the end. -/
theorem crosses_of_scan (position : Nat) (cs : List Char) : Whole none cs →
    (Lexeme.scan position cs).2 = none → Crosses none cs none := by
  fun_induction Lexeme.scan position cs with
  | case1 position cs hcs =>
    intro _ _
    rw [← List.takeWhile_append_dropWhile (p := Lexeme.isGap) (l := cs), hcs, List.append_nil]
    exact crosses_of_blank fun c hc =>
      Lexeme.isBlank_of_isGap (List.all_eq_true.1 List.all_takeWhile c hc)
  | case2 position cs gap c tail hcs start hnone => exact fun _ h => by cases h
  | case3 position cs gap c tail hcs start kind body rest hsome lexemes fault heq ih =>
    intro hwhole hfault
    have htail : Whole none (c :: tail) := by
      rw [← hcs]
      exact hwhole.dropWhile fun _ => Lexeme.isBlank_of_isGap
    obtain ⟨hbody, hrest, _⟩ := htail.first? hsome
    have hgap : Crosses none gap none := crosses_of_blank fun c hc =>
      Lexeme.isBlank_of_isGap (List.all_eq_true.1 List.all_takeWhile c hc)
    rw [heq] at ih
    rw [← List.takeWhile_append_dropWhile (p := Lexeme.isGap) (l := cs), hcs,
      ← (Lexeme.first?_eq hsome).1]
    exact hgap.append (hbody.append (ih hrest hfault))

/-- The divider is outside quotes behind a fragment that can be read. -/
theorem crosses_of_parse {fragment : String} {t : Term} (hwhole : Whole none fragment.toList)
    (h : parse fragment = .ok t) : Crosses none fragment.toList none := by
  obtain ⟨tokens, htokens, _⟩ := (parse_eq_ok_iff_rows fragment t).1 h
  rw [Token.tokenize_eq_ok_iff, Token.stream] at htokens
  exact crosses_of_scan 0 _ hwhole
    (Token.fault_of_ofLexemes (Lexeme.scan 0 fragment.toList).1 0 0 none (congrArg Prod.snd htokens))

/-! ## Blanks at the ends -/

/-- Blanks at the ends change nothing for the divider. -/
theorem crosses_of_trimChars {cs : List Char} (h : Crosses none (Text.trimChars cs) none) :
    Crosses none cs none := by
  obtain ⟨a, b, hcs, ha, hb⟩ := exists_trimChars cs
  rw [hcs]
  exact ((crosses_of_blank ha).append h).append (crosses_of_blank hb)

/-! ## Joining query strings -/

theorem Crosses.of_inside {q c : Char} {after : Option Char} {cs : List Char} (hc : c ≠ '\\')
    (h : Crosses (some q) (c :: cs) after) : Crosses (if c = q then none else some q) cs after := by
  cases h with
  | escape => exact absurd rfl hc
  | inside _ h => exact h

theorem Crosses.of_outside {c : Char} {after : Option Char} {cs : List Char} (hc : c ≠ '\\')
    (h : Crosses none (c :: cs) after) : Crosses (opened c) cs after := by
  cases h with
  | escape => exact absurd rfl hc
  | outside _ _ h => exact h

theorem Crosses.of_escape {quote after : Option Char} {c : Char} {cs : List Char}
    (h : Crosses quote ('\\' :: c :: cs) after) : Crosses quote cs after := by
  cases h with
  | escape h => exact h
  | inside hc => exact absurd rfl hc
  | outside hc => exact absurd rfl hc

/-- What comes behind is read from the quote that is open there. -/
theorem Crosses.of_append {quote mid after : Option Char} {a b : List Char}
    (h : Crosses quote a mid) : Crosses quote (a ++ b) after → Crosses mid b after := by
  induction h with
  | nil quote => exact fun h => h
  | escape _ ih => exact fun h => ih h.of_escape
  | inside hc _ ih => exact fun h => ih (h.of_inside hc)
  | outside hc _ _ ih => exact fun h => ih (h.of_outside hc)

theorem divideChars_ne_nil (quote : Option Char) (piece cs : List Char) :
    divideChars quote piece cs ≠ [] := by
  fun_induction divideChars quote piece cs with
  | case1 => simp
  | case2 => simp
  | case3 quote piece c rest ih => exact ih
  | case4 piece q c cs hc ih => exact ih
  | case5 => simp
  | case6 piece c cs hc hamp ih => exact ih

/-- If no quote is open behind the last piece, an `&` ends it. -/
theorem divideChars_behind (r : List Char) (quote : Option Char) (piece cs : List Char) :
    Crosses none piece.reverse quote →
    (∀ p ∈ (divideChars quote piece cs).getLast?, Crosses none p none) →
    divideChars quote piece (cs ++ '&' :: r) =
      divideChars quote piece cs ++ divideChars none [] r := by
  fun_induction divideChars quote piece cs with
  | case1 quote piece =>
    intro h hlast
    have hclosed : Crosses none (piece.reverse ++ []) none := by
      rw [List.append_nil]
      exact hlast _ rfl
    cases h.of_append hclosed with
    | nil => rw [List.nil_append, divideChars_amp, List.singleton_append]
  | case2 quote piece =>
    intro h hlast
    have hlone : Crosses none (piece.reverse ++ ['\\']) none := by
      rw [← List.reverse_cons]
      exact hlast _ rfl
    cases h.of_append hlone with
    | outside hc => exact absurd rfl hc
    | inside hc => exact absurd rfl hc
  | case3 quote piece c rest ih =>
    intro h hlast
    rw [List.cons_append, List.cons_append, divideChars_escape]
    exact ih (h.append_reverse [c, '\\'] (.escape (.nil _))) hlast
  | case4 piece q c cs hc ih =>
    intro h hlast
    rw [List.cons_append, divideChars_inside hc]
    exact ih (h.append_reverse [c] (.inside hc (.nil _))) hlast
  | case5 piece cs hc ih =>
    intro h hlast
    rw [List.cons_append, divideChars_amp, List.cons_append, ih (.nil none) fun p hp => hlast p ?_]
    rwa [List.getLast?_cons_of_ne_nil (divideChars_ne_nil none [] cs)]
  | case6 piece c cs hc hamp ih =>
    intro h hlast
    rw [List.cons_append, divideChars_outside hc hamp]
    exact ih (h.append_reverse [c] (.outside hc hamp (.nil _))) hlast

/-- Fragments have characters, and no blanks at their ends. -/
theorem trimmed_of_mem_split {text fragment : String} (h : fragment ∈ split text) :
    Trimmed fragment.toList := by
  obtain ⟨cs, hcs, hfragment⟩ := List.mem_filterMap.1 h
  obtain ⟨piece, hpiece, rfl⟩ := List.mem_map.1 hcs
  split at hfragment
  · cases hfragment
  · next hne =>
    cases hfragment
    rw [String.toList_ofList]
    exact trimmed_trimChars hne

/-- The fragments of a query string that are all readable are followed by those
of what is joined to it. -/
theorem split_append {text : String} (h : ∀ f ∈ split text, ∃ t, parse f = .ok t)
    (other : String) : split (text ++ "&" ++ other) = split text ++ split other := by
  have hlast : ∀ p ∈ (divideChars none [] text.toList).getLast?, Crosses none p none := by
    intro p hp
    have hmem := List.mem_of_mem_getLast? hp
    refine crosses_of_trimChars ?_
    by_cases hnil : Text.trimChars p = []
    · rw [hnil]
      exact .nil none
    · have hfragment : String.ofList (Text.trimChars p) ∈ split text :=
        List.mem_filterMap.2 ⟨_, List.mem_map_of_mem hmem, if_neg hnil⟩
      obtain ⟨t, ht⟩ := h _ hfragment
      have hcrosses := crosses_of_parse (whole_of_mem_split hfragment) ht
      rwa [String.toList_ofList] at hcrosses
  have hchars : (text ++ "&" ++ other).toList = text.toList ++ '&' :: other.toList := by
    rw [String.toList_append, String.toList_append, List.append_assoc]
    rfl
  rw [split, hchars, divideChars_behind _ none [] _ (.nil none) hlast, List.map_append,
    List.filterMap_append]
  rfl

end Fragment
end ResourceQuery

import ResourceQuery.Proofs.Fragment.Layout
import ResourceQuery.Proofs.Fragment.RoundTrip
import ResourceQuery.Proofs.Term.Induction

set_option autoImplicit false

/-!
# Fragments: joining canonical texts

The words of a term that was read from a fragment of a query string hold no `&`
that would divide them, so its canonical text is not divided; and such texts,
joined with `&`, are divided where they were joined.

For this the words of a term are followed to the tokens that they come from, and
each word is written so that the divider crosses it.  Escapes make it so where
the word itself would not.
-/

namespace ResourceQuery

theorem Term.Writable.child {t child : Term} (h : t.Writable) (hchild : child ∈ t.children) :
    child.Writable := by
  cases h with
  | leaf => cases hchild
  | call _ hargs => exact hargs child hchild

namespace Fragment

/-! ## Words of terms -/

mutual

/-- The words of the term that is built are texts of tokens. -/
theorem Derivation.text_mem_tokens : ∀ (d : Derivation), ∀ u ∈ d.term.subterms,
    .text u.token u.quote ∈ d.tokens
  | .text t q, u, hu => by
    rw [term_text, Term.subterms_eq] at hu
    rw [List.mem_singleton.1 hu, tokens_text]
    exact List.mem_singleton_self _
  | .call name args, u, hu => by
    rw [term_call] at hu
    rw [tokens_call]
    rcases Term.mem_subterms.1 hu with rfl | ⟨child, hchild, hu⟩
    · exact List.mem_cons_self
    · exact List.mem_cons_of_mem _ (List.mem_cons_of_mem _ (List.mem_append_left _
        (Derivation.text_mem_argTokens args child hchild u hu)))

theorem Derivation.text_mem_argTokens : ∀ (ds : List Derivation), ∀ t ∈ ds.map Derivation.term,
    ∀ u ∈ t.subterms, .text u.token u.quote ∈ Derivation.argTokens ds
  | [], t, ht, _, _ => absurd ht List.not_mem_nil
  | d :: ds, t, ht, u, hu => by
    rcases List.mem_cons.1 ht with rfl | ht
    · exact mem_argTokens List.mem_cons_self (Derivation.text_mem_tokens d u hu)
    · cases ds with
      | nil => cases ht
      | cons e ds =>
        rw [argTokens_cons_cons]
        exact List.mem_append_right _ (List.mem_cons_of_mem _
          (Derivation.text_mem_argTokens (e :: ds) t ht u hu))

end

/-- The words that a shorthand brings in. -/
def IsImplied (u : Term) : Prop := u = .leaf "" (some .double) ∨ (u.token = "eq" ∧ u.quote = none)

theorem Derivation.text_mem_values (ds : List Derivation) : ∀ t ∈ Derivation.values ds,
    ∀ u ∈ t.subterms, .text u.token u.quote ∈ Derivation.rowTokens ds ∨ IsImplied u := by
  intro t ht u hu
  cases ds with
  | nil =>
    rw [List.mem_singleton.1 ht, Term.subterms_eq] at hu
    exact .inr (.inl (List.mem_singleton.1 hu))
  | cons d ds =>
    obtain ⟨e, he, rfl⟩ := List.mem_map.1 ht
    exact .inl (List.mem_flatMap.2 ⟨e, he, e.text_mem_tokens u hu⟩)

/-- The words of the term of a fragment are texts of its tokens, or brought in
by a shorthand. -/
theorem Sentence.text_mem_tokens (f : Sentence) : ∀ u ∈ f.built.subterms,
    .text u.token u.quote ∈ f.tokens ∨ IsImplied u := by
  have hkey : ∀ {key : String} {quote : Option Quote} {u : Term},
      u ∈ (Term.leaf key quote).subterms → u = .leaf key quote := by
    intro key quote u hu
    rw [Term.subterms_eq] at hu
    exact List.mem_singleton.1 hu
  intro u hu
  cases f with
  | term d => exact .inl (d.text_mem_tokens u hu)
  | keyed key quote values =>
    unfold built at hu
    split at hu
    · next heq => cases heq
    · next name args heq =>
      cases heq
      rcases Term.mem_subterms.1 hu with rfl | ⟨child, hchild, hu⟩
      · exact .inl (by simp [tokens, Derivation.tokens_call, Term.call])
      · rcases List.mem_cons.1 hchild with rfl | hchild
        · rw [hkey hu]
          exact .inl (by simp [tokens, Term.leaf])
        · have hmem := Derivation.text_mem_argTokens args child hchild u hu
          exact .inl (by simp [tokens, Derivation.tokens_call, hmem])
    · next heq =>
      cases heq
      rcases Term.mem_subterms.1 hu with rfl | ⟨child, hchild, hu⟩
      · exact .inr (.inr ⟨rfl, rfl⟩)
      · rcases List.mem_cons.1 hchild with rfl | hchild
        · rw [hkey hu]
          exact .inl (by simp [tokens, Term.leaf])
        · refine (Derivation.text_mem_values values child hchild u hu).imp_left fun hmem => ?_
          simp [tokens, hmem]
    · next heq => cases heq
  | operated key quote operator values =>
    rcases Term.mem_subterms.1 hu with rfl | ⟨child, hchild, hu⟩
    · exact .inl (by simp [tokens, built, Term.call])
    · rcases List.mem_cons.1 hchild with rfl | hchild
      · rw [hkey hu]
        exact .inl (by simp [tokens, Term.leaf])
      · refine (Derivation.text_mem_values values child hchild u hu).imp_left fun hmem => ?_
        simp [tokens, hmem]

/-- A term that can be written, and whose bare words hold no `&` that would divide it. -/
structure Undivided (t : Term) : Prop where
  writable : t.Writable
  unbroken : ∀ u ∈ t.subterms, u.quote = none → Unbroken u.token.toList

/-- The term of a fragment of a query string. -/
theorem undivided_of_parse {fragment : String} {t : Term} (hwhole : Whole none fragment.toList)
    (h : parse fragment = .ok t) : Undivided t := by
  refine ⟨writable_of_parse h, fun u hu hquote => ?_⟩
  obtain ⟨tokens, htokens, f, hkinds, rfl⟩ := (parse_eq_ok_iff_sentence fragment t).1 h
  rcases f.text_mem_tokens u hu with hmem | rfl | ⟨htoken, _⟩
  · rw [← hkinds, hquote] at hmem
    obtain ⟨token, htoken, hkind⟩ := List.mem_map.1 hmem
    exact unbroken_tokenize hwhole htokens token htoken _ hkind
  · cases hquote
  · rw [htoken]
    exact .plain (by decide) (by decide) (.plain (by decide) (by decide) .nil)

theorem Undivided.child {t child : Term} (h : Undivided t) (hchild : child ∈ t.children) :
    Undivided child :=
  ⟨h.writable.child hchild, fun u hu => h.unbroken u (Term.mem_subterms_of_child hchild hu)⟩

theorem Undivided.call {name : String} {args : List Term} (hproper : Token.Proper name none)
    (hname : Unbroken name.toList) (hargs : ∀ a ∈ args, Undivided a) :
    Undivided (.call name args) := by
  refine ⟨.call hproper fun a ha => (hargs a ha).writable, Term.forall_subterms.2 ⟨?_, ?_⟩⟩
  · exact fun _ => hname
  · exact fun a ha => (hargs a ha).unbroken

/-- Every character of the word stands for itself. -/
theorem safe_word (word : String) (hne : word.toList ≠ [])
    (h : (word.toList.all fun c => c != '\\' && c != '&' && c != '\n') = true) :
    Token.Proper word none ∧ Unbroken word.toList := by
  simp only [List.all_eq_true, Bool.and_eq_true, bne_iff_ne] at h
  have hsafe : ∀ {cs : List Char}, (∀ c ∈ cs, (c ≠ '\\' ∧ c ≠ '&') ∧ c ≠ '\n') →
      Token.Paired cs ∧ Unbroken cs := by
    intro cs
    induction cs with
    | nil => exact fun _ => ⟨.nil, .nil⟩
    | cons c cs ih =>
      intro hcs
      obtain ⟨⟨hback, hamp⟩, _⟩ := hcs c List.mem_cons_self
      obtain ⟨hpaired, hunbroken⟩ := ih fun d hd => hcs d (List.mem_cons_of_mem c hd)
      exact ⟨.plain hback hpaired, .plain hback hamp hunbroken⟩
  obtain ⟨hpaired, hunbroken⟩ := hsafe h
  refine ⟨⟨hpaired, hne, fun hhead => ?_, fun hlast => ?_⟩, hunbroken⟩
  · exact (h '\n' (List.mem_of_mem_head? hhead)).2 rfl
  · exact (h '\n' (List.mem_of_mem_getLast? hlast)).2 rfl

theorem Undivided.word {t : Term} (h : Undivided t) (hbare : t.quote = none) :
    Token.Proper t.token none ∧ Unbroken t.token.toList := by
  refine ⟨?_, h.unbroken t t.mem_subterms_self hbare⟩
  cases h.writable with
  | leaf hproper => exact hbare ▸ hproper
  | call hproper _ => exact hproper

theorem Undivided.leaf {text : String} {quote : Option Quote} (hproper : Token.Proper text quote)
    (hunbroken : quote = none → Unbroken text.toList) : Undivided (.leaf text quote) := by
  refine ⟨.leaf hproper, fun u hu hbare => ?_⟩
  rw [Term.subterms_eq] at hu
  obtain rfl : u = .leaf text quote := List.mem_singleton.1 hu
  exact hunbroken hbare

/-! ## Written terms -/

/-- In quotes an `&` does not divide, and the quote is escaped. -/
theorem crosses_quotedChars {q : Quote} {cs : List Char} (h : Token.Quotable q cs) :
    Crosses (some q.char) (Term.quotedChars q cs) (some q.char) := by
  induction h with
  | nil => exact .nil _
  | @plain c cs hc _ ih =>
    by_cases hq : c = q.char
    · rw [hq, Term.quotedChars_quote]
      exact .escape ih
    · rw [Term.quotedChars_other hq]
      refine .inside hc ?_
      rwa [if_neg hq]
  | @pair c cs _ hquote _ ih =>
    rw [Term.quotedChars_pair hquote]
    exact .escape ih

theorem crosses_writeQuoted {q : Quote} {cs : List Char} (h : Token.Quotable q cs) :
    Crosses none (Term.writeQuoted q cs) none := by
  have hback : q.char ≠ '\\' := by cases q <;> decide
  have hamp : q.char ≠ '&' := by cases q <;> decide
  have hopened : opened q.char = some q.char := by cases q <;> rfl
  rw [Term.writeQuoted_eq]
  refine .outside hback hamp ?_
  rw [hopened]
  refine (crosses_quotedChars h).append (.inside hback ?_)
  rw [if_pos rfl]
  exact .nil none

theorem crosses_writeBareChar {c : Char} (hc : c ≠ '\\') (hamp : c ≠ '&') (edge : Bool) :
    Crosses none (Term.writeBareChar edge c) none := by
  unfold Term.writeBareChar
  split
  · exact .escape (.nil none)
  · next hplain =>
    have hopened : opened c = none := by
      refine if_neg ?_
      rintro (rfl | rfl)
      · exact hplain (by cases edge <;> decide)
      · exact hplain (by cases edge <;> decide)
    refine .outside hc hamp ?_
    rw [hopened]
    exact .nil none

theorem crosses_writeBareRest {cs : List Char} (h : Token.Paired cs) :
    Unbroken cs → Crosses none (Term.writeBareRest cs) none := by
  induction h with
  | nil => exact fun _ => .nil none
  | @plain c cs hc _ ih =>
    intro hunbroken
    rw [Term.writeBareRest_cons]
    cases hunbroken with
    | plain _ hamp hunbroken => exact (crosses_writeBareChar hc hamp _).append (ih hunbroken)
    | escape => exact absurd rfl hc
  | @pair c cs hc _ ih =>
    intro hunbroken
    rw [Term.writeBareRest_pair hc]
    cases hunbroken with
    | plain hback => exact absurd rfl hback
    | escape hunbroken => exact .escape (ih hunbroken)

/-- A bare text that is written is crossed. -/
theorem crosses_writeBare {cs : List Char} (h : Token.Paired cs) (hunbroken : Unbroken cs) :
    Crosses none (Term.writeBare cs) none := by
  cases h with
  | nil => exact .outside (by decide) (by decide) (.inside (by decide) (.nil none))
  | @plain c cs hc h =>
    cases hunbroken with
    | plain _ hamp hunbroken =>
      exact (crosses_writeBareChar hc hamp true).append (crosses_writeBareRest h hunbroken)
    | escape => exact absurd rfl hc
  | @pair c cs hc h =>
    rw [Term.writeBare_pair hc]
    cases hunbroken with
    | plain hback => exact absurd rfl hback
    | escape hunbroken => exact .escape (crosses_writeBareRest h hunbroken)

theorem Undivided.crosses_word {t : Term} (h : Undivided t) :
    Crosses none (Term.writeWord t.token t.quote) none := by
  have hproper : Token.Proper t.token t.quote := by
    cases h.writable with
    | leaf hproper => exact hproper
    | call hproper _ => exact hproper
  cases hquote : t.quote with
  | none =>
    rw [hquote] at hproper
    exact crosses_writeBare hproper.1 (h.unbroken t t.mem_subterms_self hquote)
  | some q =>
    rw [hquote] at hproper
    exact crosses_writeQuoted (Token.Paired.quotable q hproper)

theorem crosses_mark {c : Char} {cs : List Char} (hc : c = '(' ∨ c = ')' ∨ c = ',')
    (h : Crosses none cs none) : Crosses none (c :: cs) none := by
  rcases hc with rfl | rfl | rfl
  · exact .outside (by decide) (by decide) h
  · exact .outside (by decide) (by decide) h
  · exact .outside (by decide) (by decide) h

/-- The arguments of a call are crossed, with the commas between them. -/
theorem crosses_writeRest {ts : List Term} (h : ∀ t ∈ ts, Crosses none t.write none) :
    Crosses none (Term.writeRest ts) none := by
  induction ts with
  | nil =>
    rw [Term.writeRest]
    exact .nil none
  | cons t ts ih =>
    rw [Term.writeRest]
    exact crosses_mark (.inr (.inr rfl)) ((h t List.mem_cons_self).append
      (ih fun u hu => h u (List.mem_cons_of_mem t hu)))

/-- The text of such a term is read without a division. -/
theorem Undivided.crosses_write {t : Term} (h : Undivided t) : Crosses none t.write none := by
  induction t using Term.induction with
  | node token quote children ih =>
    have hword : Crosses none (Term.writeWord token quote) none := h.crosses_word
    have hchildren : ∀ child ∈ children, Crosses none child.write none := fun child hchild =>
      ih child hchild (h.child hchild)
    cases children with
    | nil =>
      rw [Term.write]
      exact hword
    | cons first rest =>
      have hrest := crosses_writeRest fun child hchild =>
        hchildren child (List.mem_cons_of_mem first hchild)
      have hclosing : Crosses none [')'] none := crosses_mark (.inr (.inl rfl)) (.nil none)
      have hargs := (hchildren first List.mem_cons_self).append (hrest.append hclosing)
      have hall := hword.append (crosses_mark (.inl rfl) hargs)
      rw [Term.write]
      simpa only [List.append_assoc, List.cons_append] using hall

/-! ## Joining -/

/-- Texts that are not divided, joined with `&`, are the fragments of what they are joined to. -/
theorem split_join {texts : List String}
    (h : ∀ text ∈ texts, Crosses none text.toList none ∧ Trimmed text.toList) :
    split ("&".intercalate texts) = texts := by
  refine split_intercalate fun text htext => ?_
  obtain ⟨hcrosses, htrimmed⟩ := h text htext
  obtain ⟨hseamless, hread⟩ := hcrosses.scan
  exact ⟨htrimmed, hseamless, hread⟩

end Fragment
end ResourceQuery

import ResourceQuery.Proofs.Fragment.Acceptance
import ResourceQuery.Proofs.Token.Proper

set_option autoImplicit false

/-!
# Fragments: the round trip

A term that was read from a fragment can be written, and what is written is read
as the term again.  The words of such a term are texts of tokens, so none of
them is lost in writing; and only unquoted words have arguments.  That is enough
for the canonical text to be read back, at every depth and before everything
that ends a word.
-/

namespace ResourceQuery

/-- Each word is the text of a token, and no word in quotes has arguments. -/
inductive Term.Writable : Term → Prop where
  | leaf {text : String} {quote : Option Quote} (h : Token.Proper text quote) :
      Writable (.leaf text quote)
  | call {name : String} {args : List Term} (h : Token.Proper name none)
      (hargs : ∀ a ∈ args, Writable a) : Writable (.call name args)

namespace Fragment

open Token (Spells Stops)

/-! ## Terms that are read can be written -/

theorem Derivation.mem_argTokens {d : Derivation} {ds : List Derivation} (hd : d ∈ ds)
    {kind : Token.Kind} (h : kind ∈ d.tokens) : kind ∈ Derivation.argTokens ds := by
  induction ds with
  | nil => cases hd
  | cons e ds ih =>
    cases ds with
    | nil =>
      rw [List.mem_singleton.1 hd] at h
      rwa [argTokens_singleton]
    | cons f ds =>
      rw [argTokens_cons_cons]
      rcases List.mem_cons.1 hd with rfl | hd
      · exact List.mem_append_left _ h
      · exact List.mem_append_right _ (List.mem_cons_of_mem _ (ih hd))

mutual

theorem Derivation.writable_term : ∀ d : Derivation,
    (∀ text quote, .text text quote ∈ d.tokens → Token.Proper text quote) → d.term.Writable
  | .text t q, h => by
    rw [term_text]
    exact .leaf (h t q (by rw [tokens_text]; exact List.mem_singleton_self _))
  | .call name args, h => by
    rw [term_call]
    rw [tokens_call] at h
    refine .call (h name none (by simp)) (Derivation.writable_terms args ?_)
    intro d hd text quote htext
    exact h text quote (by simp [mem_argTokens hd htext])

theorem Derivation.writable_terms : ∀ ds : List Derivation,
    (∀ d ∈ ds, ∀ text quote, .text text quote ∈ d.tokens → Token.Proper text quote) →
    ∀ t ∈ ds.map Derivation.term, t.Writable
  | [], _, t, ht => by cases ht
  | d :: ds, h, t, ht => by
    rcases List.mem_cons.1 ht with rfl | ht
    · exact Derivation.writable_term d (h d List.mem_cons_self)
    · exact Derivation.writable_terms ds (fun e he => h e (List.mem_cons_of_mem d he)) t ht

end

theorem Derivation.writable_values {ds : List Derivation}
    (h : ∀ text quote, .text text quote ∈ Derivation.rowTokens ds → Token.Proper text quote) :
    ∀ t ∈ Derivation.values ds, t.Writable := by
  cases ds with
  | nil =>
    intro t ht
    rw [List.mem_singleton.1 ht]
    exact .leaf Token.Paired.nil
  | cons d ds =>
    refine Derivation.writable_terms (d :: ds) ?_
    intro e he text quote htext
    exact h text quote (List.mem_flatMap.2 ⟨e, he, htext⟩)

theorem proper_eq : Token.Proper "eq" none := by
  refine ⟨.plain (by decide) (.plain (by decide) .nil), ⟨by decide, by decide, by decide⟩⟩

/-- The term of a sentence can be written when the texts of its tokens can. -/
theorem Sentence.writable_built (f : Sentence)
    (h : ∀ text quote, .text text quote ∈ f.tokens → Token.Proper text quote) :
    f.built.Writable := by
  have hcall : ∀ {name key : String} {quote : Option Quote} {args : List Term},
      Token.Proper name none → Token.Proper key quote → (∀ a ∈ args, a.Writable) →
      (Term.call name (.leaf key quote :: args)).Writable := by
    intro name key quote args hname hkey hargs
    refine .call hname fun a ha => ?_
    rcases List.mem_cons.1 ha with rfl | ha
    · exact .leaf hkey
    · exact hargs a ha
  cases f with
  | term d => exact Derivation.writable_term d h
  | keyed key quote values =>
    have hkey := h key quote (by simp [tokens])
    have hvalues : ∀ text quote, .text text quote ∈ Derivation.rowTokens values →
        Token.Proper text quote := fun text quote ht => h text quote (by simp [tokens, ht])
    unfold built
    split
    · next d heq => cases heq
    · next name args heq =>
      cases heq
      rw [Derivation.rowTokens_cons, Derivation.tokens_call] at hvalues
      refine hcall (hvalues name none (by simp)) hkey (Derivation.writable_terms args ?_)
      intro d hd text quote htext
      exact hvalues text quote (by simp [Derivation.mem_argTokens hd htext])
    · next heq =>
      cases heq
      exact hcall proper_eq hkey (Derivation.writable_values hvalues)
    · next heq => cases heq
  | operated key quote operator values =>
    have hvalues : ∀ text quote, .text text quote ∈ Derivation.rowTokens values →
        Token.Proper text quote := fun text quote ht => h text quote (by simp [tokens, ht])
    exact hcall (h operator none (by simp [tokens])) (h key quote (by simp [tokens]))
      (Derivation.writable_values hvalues)

/-- A term that was read from a fragment can be written. -/
theorem writable_of_parse {fragment : String} {t : Term} (h : parse fragment = .ok t) :
    t.Writable := by
  obtain ⟨tokens, htokens, f, hkinds, rfl⟩ := (parse_eq_ok_iff_sentence fragment t).1 h
  refine f.writable_built ?_
  intro text quote htext
  rw [← hkinds] at htext
  obtain ⟨token, htoken, hkind⟩ := List.mem_map.1 htext
  exact Token.properText_tokenize htokens token htoken text quote hkind

/-! ## Terms that are written are read back -/

/-- The text of the term is read, before anything that ends a word, as the
tokens of the derivation; and the derivation builds the term. -/
structure ReadsAs (t : Term) (d : Derivation) : Prop where
  term_eq : d.term = t
  spells : ∀ (depth : Nat) (rest : List Char) (kinds : List Token.Kind),
    Spells depth none rest kinds → Stops depth rest →
    Spells depth none (t.write ++ rest) (d.tokens ++ kinds)

/-- The arguments of a call are read up to the closing parenthesis. -/
theorem exists_derivations (args : List Term) :
    ∀ first : Term, (∀ a ∈ first :: args, ∃ d, ReadsAs a d) →
    ∃ ds, ds ≠ [] ∧ ds.map Derivation.term = first :: args ∧
      ∀ (depth : Nat) (rest : List Char) (kinds : List Token.Kind), Spells depth none rest kinds →
        Spells (depth + 1) none (first.write ++ (Term.writeRest args ++ ')' :: rest))
          (Derivation.argTokens ds ++ .closing :: kinds) := by
  induction args with
  | nil =>
    intro first h
    obtain ⟨d, hd⟩ := h first List.mem_cons_self
    refine ⟨[d], List.cons_ne_nil _ _, by rw [List.map_singleton, hd.term_eq], ?_⟩
    intro depth rest kinds hrest
    rw [Derivation.argTokens_singleton]
    exact hd.spells (depth + 1) _ _ (.closing hrest) (.inr (.inl rfl))
  | cons second args ih =>
    intro first h
    obtain ⟨d, hd⟩ := h first List.mem_cons_self
    obtain ⟨ds, hne, hterms, hspells⟩ := ih second fun a ha => h a (List.mem_cons_of_mem first ha)
    obtain ⟨e, es, rfl⟩ := List.exists_cons_of_ne_nil hne
    refine ⟨d :: e :: es, List.cons_ne_nil _ _, by rw [List.map_cons, hd.term_eq, hterms], ?_⟩
    intro depth rest kinds hrest
    have hmore := Spells.comma (hspells depth rest kinds hrest)
    have hall := hd.spells (depth + 1) _ _ hmore (.inr (.inr (.inl rfl)))
    rw [Derivation.argTokens_cons_cons, Term.writeRest]
    simpa only [List.append_assoc, List.cons_append] using hall

/-- A leaf is read as the only token of its text. -/
theorem readsAs_text {text : String} {quote : Option Quote} (hproper : Token.Proper text quote) :
    ReadsAs (.leaf text quote) (.text text quote) := by
  refine ⟨Derivation.term_text text quote, ?_⟩
  intro depth rest kinds hrest hstops
  rw [Derivation.tokens_text, Term.leaf, Term.write]
  exact Spells.word hrest hstops hproper

/-- Every term that can be written is read back from its canonical text. -/
theorem exists_readsAs {t : Term} (h : t.Writable) : ∃ d, ReadsAs t d := by
  induction h with
  | leaf hproper => exact ⟨_, readsAs_text hproper⟩
  | @call name args hproper _ ih =>
    cases args with
    | nil =>
      -- a call without arguments is written like a leaf
      exact ⟨_, readsAs_text hproper⟩
    | cons first args =>
      obtain ⟨ds, _, hterms, hspells⟩ := exists_derivations args first ih
      refine ⟨.call name ds, by rw [Derivation.term_call, hterms], ?_⟩
      intro depth rest kinds hrest _
      have hname := Spells.word (Spells.opening (hspells depth rest kinds hrest)) (.inl rfl) hproper
      rw [Derivation.tokens_call, Term.call, Term.write]
      simpa only [List.append_assoc, List.cons_append, List.nil_append] using hname

/-- The canonical text of a term that can be written is read as the term. -/
theorem parse_render_of_writable {t : Term} (h : t.Writable) : parse t.render = .ok t := by
  obtain ⟨d, hd⟩ := exists_readsAs h
  have hspells := hd.spells 0 [] [] .nil trivial
  rw [List.append_nil, List.append_nil] at hspells
  have hlist : t.render.toList = t.write := String.toList_ofList
  rw [← hlist] at hspells
  obtain ⟨tokens, htokens, hkinds⟩ := Token.tokenize_of_spells hspells
  exact (parse_eq_ok_iff_sentence _ t).2 ⟨tokens, htokens, .term d, hkinds, hd.term_eq⟩

/-- What was read from any fragment is, once written, read as the same term again. -/
theorem parse_render_of_parse (fragment : String) (t : Term) (h : parse fragment = .ok t) :
    parse t.render = .ok t :=
  parse_render_of_writable (writable_of_parse h)

theorem parse_render_of_escaped_words :
    parse (Term.render (.call "in" [.word "na\u3000me", .leaf "it's" (some .single),
      .word " a=b,", .word "c\\~d", .leaf "" (some .double)])) =
      .ok (.call "in" [.word "na\u3000me", .leaf "it's" (some .single),
        .word " a=b,", .word "c\\~d", .leaf "" (some .double)]) :=
  parse_render_of_parse "na\u3000me = in('it\\'s', \\ a=b\\, , c\\~d,\"\")" _
    (eq_ok_of_toOption (by decide +kernel))

end Fragment
end ResourceQuery

import ResourceQuery.Proofs.Query.Fitting

set_option autoImplicit false

/-!
# Fragments: reading a query string again

All fragments of a query string are read into one store.  What is read is the
term of each fragment, whatever else the store holds, so the canonical texts of
the terms, joined with `&`, are read as the same terms.  Only a bare word that
ends in a blank is no fragment as it is written: the blank is escaped, and
trimming takes it away from its escape.

Two facts of other modules meet here: texts that are not divided are divided
again where they were joined, and the canonical text of a term is read as the
term.
-/

namespace ResourceQuery

open Fragment (Trimmed)

/-! ## Reading into a store -/

namespace Store

/-- Reading fragments only adds words to a store. -/
theorem extends_parseAll (fragments : List String) :
    ∀ s : Store, s.Extends (s.parseAll fragments).2 := by
  induction fragments with
  | nil => exact Extends.refl
  | cons fragment fragments ih =>
    intro s
    have hfirst := extends_parse s fragment
    rw [parseAll]
    rcases hparse : s.parse fragment with ⟨fault | id, s₁⟩
    · rw [hparse] at hfirst
      exact hfirst
    · rw [hparse] at hfirst
      have hrest := hfirst.trans (ih s₁)
      dsimp only
      rcases hall : s₁.parseAll fragments with ⟨fault | ids, s₂⟩
      · rw [hall] at hrest
        exact hrest
      · rw [hall] at hrest
        exact hrest

/-- The fragments are read as the terms that they write, or with the fault of
the first one at fault, whatever the store holds. -/
theorem read_parseAll (fragments : List String) : ∀ s : Store,
    (fun ids => ids.map (s.parseAll fragments).2.read) <$> (s.parseAll fragments).1 =
      fragments.mapM Fragment.parse := by
  induction fragments with
  | nil => exact fun _ => rfl
  | cons fragment fragments ih =>
    intro s
    rw [List.mapM_cons, parseAll]
    rcases hparse : s.parse fragment with ⟨fault | id, s₁⟩
    · rw [parse_error_of_read hparse]
      rfl
    · have hkept := read_of_parse hparse (extends_parseAll fragments s₁)
      rw [parse_of_read hparse, ← ih s₁]
      dsimp only
      rcases hall : s₁.parseAll fragments with ⟨fault | ids, s₂⟩
      · rfl
      · rw [hall] at hkept
        exact congrArg (fun t => Except.ok (t :: ids.map s₂.read)) hkept

end Store

/-! ## Canonical texts as fragments -/

namespace Term

/-- A leaf without quotes whose last character is a blank. -/
def endsInBlank (t : Term) : Bool := t.isWord && t.token.toList.getLast?.any Text.isBlank

/-- A bare text ends with its last character, escaped or not. -/
theorem getLast?_writeBareChar (edge : Bool) (c : Char) (cs : List Char) :
    (writeBareChar edge c ++ writeBareRest cs).getLast? = (c :: cs).getLast? := by
  induction cs generalizing edge c with
  | nil =>
    have hrest : writeBareRest [] = [] := rfl
    rw [hrest, List.append_nil, writeBareChar]
    split
    · rfl
    · rfl
  | cons d cs ih =>
    rw [writeBareRest_cons, List.getLast?_append, ih, List.getLast?_cons_cons]
    cases hlast : (d :: cs).getLast? with
    | none => exact absurd (List.getLast?_eq_none_iff.1 hlast) (List.cons_ne_nil d cs)
    | some e => rfl

/-- No blank stands in front of a word, where it would be escaped. -/
theorem head?_writeWord (token : String) (quote : Option Quote) :
    ∃ c, (writeWord token quote).head? = some c ∧ Text.isBlank c = false := by
  cases quote with
  | some q => exact ⟨q.char, rfl, by cases q <;> decide⟩
  | none =>
    rw [writeWord]
    cases token.toList with
    | nil => exact ⟨'"', rfl, by decide⟩
    | cons c cs =>
      rw [writeBare]
      cases hstructural : Token.isStructural c with
      | true =>
        rw [writeBareChar_escape hstructural (.inr rfl)]
        exact ⟨'\\', rfl, by decide⟩
      | false =>
        rw [writeBareChar_plain hstructural]
        simp only [Token.isStructural, Bool.or_eq_false_iff] at hstructural
        exact ⟨c, rfl, hstructural.2⟩

/-- A blank stands at the end of a canonical text only if the term is a bare
word that ends in it. -/
theorem trimmed_write_of_ends {t : Term} (h : t.endsInBlank = false) : Trimmed t.write := by
  obtain ⟨token, quote, children⟩ := t
  obtain ⟨c, hhead, hblank⟩ := head?_writeWord token quote
  have hne : writeWord token quote ≠ [] := fun hnil => by
    rw [hnil] at hhead
    cases hhead
  have hfirst : ∀ rest, ∀ d ∈ (writeWord token quote ++ rest).head?, Text.isBlank d = false := by
    intro rest d hd
    rw [List.head?_append_of_ne_nil _ hne, hhead] at hd
    cases hd
    exact hblank
  cases children with
  | cons child children =>
    rw [write]
    refine ⟨by simp, ?_, fun d hd => ?_⟩
    · rw [List.append_assoc, List.append_assoc]
      exact hfirst _
    · rw [List.getLast?_concat] at hd
      cases hd
      decide
  | nil =>
    rw [write]
    refine ⟨hne, by simpa using hfirst [], fun d hd => ?_⟩
    cases quote with
    | some q =>
      rw [writeWord, writeQuoted_eq, ← List.cons_append, List.getLast?_concat] at hd
      cases hd
      cases q <;> decide
    | none =>
      rw [writeWord] at hd
      have hlast : token.toList.getLast?.any Text.isBlank = false := h
      cases htoken : token.toList with
      | nil =>
        rw [htoken] at hd
        cases hd
        decide
      | cons first rest =>
        rw [htoken] at hd hlast
        rw [writeBare, getLast?_writeBareChar] at hd
        rw [Option.mem_def.1 hd] at hlast
        exact hlast

end Term

/-! ## Query strings -/

namespace Fragment

/-- The terms of a query string are read again from their canonical texts, joined with `&`. -/
theorem parse_join {text : String} {ts : List Term} (h : (split text).mapM parse = .ok ts)
    (hends : ∀ t ∈ ts, t.endsInBlank = false) :
    (split ("&".intercalate (ts.map Term.render))).mapM parse = .ok ts := by
  have hundivided : ∀ t ∈ ts, Undivided t := by
    intro t ht
    obtain ⟨fragment, hmem, hparse⟩ := exists_arg_of_mem_mapM h t ht
    exact undivided_of_parse (whole_of_mem_split hmem) hparse
  have hsplit : split ("&".intercalate (ts.map Term.render)) = ts.map Term.render := by
    refine split_join fun piece hpiece => ?_
    obtain ⟨t, ht, rfl⟩ := List.mem_map.1 hpiece
    have hwritten : t.render.toList = t.write := String.toList_ofList
    rw [hwritten]
    exact ⟨(hundivided t ht).crosses_write, Term.trimmed_write_of_ends (hends t ht)⟩
  have hparse : ∀ {us : List Term}, (∀ u ∈ us, Undivided u) →
      (us.map Term.render).mapM parse = .ok us := by
    intro us hus
    induction us with
    | nil => rfl
    | cons u us ih =>
      exact mapM_cons_ok_iff.2 ⟨u, us, parse_render_of_writable (hus u List.mem_cons_self).writable,
        ih fun v hv => hus v (List.mem_cons_of_mem u hv), rfl⟩
  rw [hsplit]
  exact hparse hundivided

end Fragment

/-- A query string that can be read, written again from its terms, is read as
the same terms, one for each, in whatever stores the words are kept.  None of
the terms may be a bare word that ends in a blank. -/
theorem Store.parseAll_join (s s' after : Store) (text : String) (ids : List WordId)
    (h : s.parseAll (Fragment.split text) = (.ok ids, after))
    (hends : ∀ id ∈ ids, (after.read id).endsInBlank = false) :
    ∃ ids' after', s'.parseAll (Fragment.split ("&".intercalate
        (ids.map fun id => (after.read id).render))) = (.ok ids', after') ∧
      ids'.length = ids.length ∧ ids'.map after'.read = ids.map after.read := by
  have hterms := read_parseAll (Fragment.split text) s
  rw [h] at hterms
  have hjoin := Fragment.parse_join hterms.symm fun t ht => by
    obtain ⟨id, hid, rfl⟩ := List.mem_map.1 ht
    exact hends id hid
  rw [List.map_map] at hjoin
  obtain ⟨ids', hids', hread⟩ := map_eq_ok_iff.1 ((read_parseAll _ s').trans hjoin)
  refine ⟨ids', _, Prod.ext hids' rfl, ?_, hread⟩
  have hlength := congrArg List.length hread
  rwa [List.length_map, List.length_map] at hlength

/-- Quotes and escapes of all kinds, and blanks at the end of a text in quotes. -/
def Fragment.knotted : String := " n='a&\\'b' && in(\\ x\\&y,z\\\\) & \"w \""

theorem Store.parseAll_join_knotted : ∃ ids after ids' after',
    Store.empty.parseAll (Fragment.split Fragment.knotted) = (.ok ids, after) ∧
    ids.map (fun id => (after.read id).render) =
      ["eq(n,'a&\\'b')", "in(\\ x\\&y,z\\\\)", "\"w \""] ∧
    (Store.empty.parse "a(b)").2.parseAll (Fragment.split
      "eq(n,'a&\\'b')&in(\\ x\\&y,z\\\\)&\"w \"") = (.ok ids', after') ∧
    ids'.length = 3 ∧ ids'.map after'.read = ids.map after.read := by
  have hread : ((Fragment.split Fragment.knotted).mapM Fragment.parse).toOption.map
      (fun ts => (ts.map Term.render, ts.any Term.endsInBlank)) =
      some (["eq(n,'a&\\'b')", "in(\\ x\\&y,z\\\\)", "\"w \""], false) := by decide +kernel
  rw [← read_parseAll _ Store.empty] at hread
  rcases hall : Store.empty.parseAll (Fragment.split Fragment.knotted) with ⟨fault | ids, after⟩
  · rw [hall] at hread
    cases hread
  · rw [hall] at hread
    simp only [Functor.map, Except.map, Except.toOption, Option.map_some, Option.some.injEq,
      Prod.mk.injEq, List.map_map, List.any_map] at hread
    obtain ⟨hrenders, hends⟩ := hread
    have hrenders : ids.map (fun id => (after.read id).render) = _ := hrenders
    obtain ⟨ids', after', hagain, hlength, hterms⟩ := parseAll_join Store.empty
      (Store.empty.parse "a(b)").2 after Fragment.knotted ids hall fun id hid =>
        Bool.eq_false_iff.2 (List.any_eq_false.1 hends id hid)
    have hcount := congrArg List.length hrenders
    rw [List.length_map] at hcount
    rw [hrenders] at hagain
    exact ⟨ids, after, ids', after', rfl, hrenders, hagain, hlength.trans hcount, hterms⟩

end ResourceQuery

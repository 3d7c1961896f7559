import Mathlib.Data.List.Forall2
import ResourceQuery.Proofs.Fragment.Joining

set_option autoImplicit false

/-!
# Fragments: shorthand and call form

A key, an operator and values write the same term as the call of the operator
with the key before the values.  The same texts stand at the top level in the
one form and inside a call in the other, where commas and `=` mean something
else; a canonical text is read alike in both places, because what would divide
it is escaped.

Each of the three forms is shown to have the tokens of a sentence, and what this
sentence builds is a matter of the grammar.  That the arguments are read alike
in both places is `spells_row`.
-/

namespace ResourceQuery

/-! ## Marks at the top level -/

namespace Token.Spells

variable {rest : List Char} {kinds : List Kind}

/-- At the top level an `=` is a token. -/
theorem equals (h : Spells 0 none rest kinds) : Spells 0 none ('=' :: rest) (.equals :: kinds) :=
  cons_token .equals .equals h rfl fun _ _ _ _ => rfl

/-- At the top level a comma is passed over. -/
theorem passed_comma (h : Spells 0 none rest kinds) : Spells 0 none (',' :: rest) kinds := by
  intro position r hr
  obtain rfl : r = none := by simpa using hr
  obtain ⟨tokens, hstream, hkinds⟩ := h (position + 0 + Lexeme.byteLength [',']) none rfl
  refine ⟨tokens, ?_, hkinds⟩
  have hfirst : Lexeme.first? (',' :: rest) = some (.comma, [','], rest) := rfl
  have hscan := Lexeme.scan_lexeme position [] (by simp) hfirst
  rw [List.nil_append] at hscan
  rw [streamFrom, hscan, ofLexemes_cons]
  exact hstream

end Token.Spells

/-! ## Texts of the three forms -/

namespace Term

/-- The texts of terms, divided by commas. -/
def row (ts : List Term) : String := ",".intercalate (ts.map render)

/-- A call, written out. -/
def callText (name : String) (args : List Term) : String :=
  (word name).render ++ "(" ++ row args ++ ")"

/-- A key and its values. -/
def keyedText (key : Term) (values : List Term) : String := key.render ++ "=" ++ row values

/-- A key, an operator and values. -/
def operatedText (key : Term) (operator : String) (values : List Term) : String :=
  key.render ++ "=" ++ (word operator).render ++ "=" ++ row values

theorem toList_render (t : Term) : t.render.toList = t.write := String.toList_ofList

theorem toList_row (t : Term) (ts : List Term) :
    (row (t :: ts)).toList = t.write ++ writeRest ts := by
  induction ts generalizing t with
  | nil =>
    rw [row, List.map_singleton, String.intercalate_singleton, toList_render, writeRest,
      List.append_nil]
  | cons u ts ih =>
    rw [row, List.map_cons, List.map_cons, String.intercalate_cons_cons, ← List.map_cons, ← row,
      String.toList_append, String.toList_append, ih, toList_render, writeRest]
    simp

/-- A call is written as its canonical text. -/
theorem callText_eq_render (name : String) (arg : Term) (args : List Term) :
    callText name (arg :: args) = (call name (arg :: args)).render := by
  rw [← String.toList_inj, callText, String.toList_append, String.toList_append,
    String.toList_append, toList_row, toList_render, toList_render, word, leaf, write, call, write]
  simp

end Term

/-! ## Reading the three forms -/

theorem Term.leaf_of_isLeaf {t : Term} (h : t.isLeaf = true) : leaf t.token t.quote = t := by
  obtain ⟨token, quote, children⟩ := t
  obtain rfl : children = [] := List.isEmpty_iff.1 h
  rfl

/-- The word of a term with arguments can be written by itself. -/
theorem Term.Writable.word_of_call {t : Term} (h : t.Writable) (hcall : t.children ≠ []) :
    (word t.token).Writable := by
  cases h with
  | leaf => exact absurd rfl hcall
  | call hproper _ => exact .leaf hproper

theorem Term.Writable.of_mem_subterms {t u : Term} (h : t.Writable) (hu : u ∈ t.subterms) :
    u.Writable := by
  induction t using Term.induction with
  | node token quote children ih =>
    rcases Term.mem_subterms.1 hu with rfl | ⟨child, hchild, hu⟩
    · exact h
    · exact ih child hchild (h.child hchild) hu

namespace Fragment

open Token (Spells Stops)

/-- The term stands in one that was read from some fragment. -/
def Occurs (t : Term) : Prop := ∃ fragment whole, parse fragment = .ok whole ∧ t ∈ whole.subterms

theorem Occurs.writable {t : Term} (h : Occurs t) : t.Writable := by
  obtain ⟨fragment, whole, hparse, ht⟩ := h
  exact (writable_of_parse hparse).of_mem_subterms ht

theorem readsAs_leaf {t : Term} (h : t.Writable) (hleaf : t.isLeaf = true) :
    ReadsAs t (.text t.token t.quote) := by
  cases h with
  | leaf hproper => exact readsAs_text hproper
  | @call name args hproper _ =>
    obtain rfl : args = [] := List.isEmpty_iff.1 hleaf
    exact readsAs_text hproper

/-- Terms that are read one by one are read side by side, with the commas
between them passed over. -/
theorem spells_row {t : Term} {ts : List Term} {ds : List Derivation}
    (h : List.Forall₂ ReadsAs (t :: ts) ds) :
    Spells 0 none (t.write ++ Term.writeRest ts) (Derivation.rowTokens ds) := by
  induction ts generalizing t ds with
  | nil =>
    cases h with
    | cons ht hnil =>
      cases hnil
      rw [Term.writeRest, Derivation.rowTokens_cons]
      exact ht.spells 0 [] [] .nil trivial
  | cons u ts ih =>
    cases h with
    | cons ht hts =>
      rw [Term.writeRest, Derivation.rowTokens_cons]
      exact ht.spells 0 _ _ (ih hts).passed_comma (.inr (.inr (.inl rfl)))

theorem exists_readsAs_all {ts : List Term} (h : ∀ t ∈ ts, t.Writable) :
    ∃ ds, List.Forall₂ ReadsAs ts ds ∧ ds.map Derivation.term = ts := by
  induction ts with
  | nil => exact ⟨[], .nil, rfl⟩
  | cons t ts ih =>
    obtain ⟨d, hd⟩ := exists_readsAs (h t List.mem_cons_self)
    obtain ⟨ds, hds, hterms⟩ := ih fun u hu => h u (List.mem_cons_of_mem t hu)
    exact ⟨d :: ds, .cons hd hds, by rw [List.map_cons, hd.term_eq, hterms]⟩

theorem Derivation.values_eq_map {ds : List Derivation} (h : ds.map term ≠ []) :
    values ds = ds.map term := by
  cases ds with
  | nil => exact absurd rfl h
  | cons d ds => rfl

/-- A text with the tokens of a sentence is read as what the sentence builds. -/
theorem parse_of_spells {text : String} {f : Sentence} (h : Spells 0 none text.toList f.tokens) :
    parse text = .ok f.built := by
  obtain ⟨tokens, htokens, hkinds⟩ := Token.tokenize_of_spells h
  exact (parse_eq_ok_iff_sentence text _).2 ⟨tokens, htokens, f, hkinds, rfl⟩

/-- A leaf before an `=` at the top level. -/
theorem spells_before_equals {t : Term} (h : t.Writable) (hleaf : t.isLeaf = true)
    {rest : List Char} {kinds : List Token.Kind} (hrest : Spells 0 none rest kinds) :
    Spells 0 none (t.write ++ '=' :: rest) (.text t.token t.quote :: .equals :: kinds) := by
  have hread := (readsAs_leaf h hleaf).spells 0 _ _ hrest.equals (.inr (.inr (.inr ⟨rfl, rfl⟩)))
  rwa [Derivation.tokens_text] at hread

variable {key value : Term} {operator : String} {values : List Term}

theorem parse_keyedText (hkey : key.Writable) (hleaf : key.isLeaf = true) {ds : List Derivation}
    (hvalues : List.Forall₂ ReadsAs (value :: values) ds) :
    parse (key.keyedText (value :: values)) = .ok (Sentence.keyed key.token key.quote ds).built := by
  refine parse_of_spells ?_
  have hread := spells_before_equals hkey hleaf (spells_row hvalues)
  rw [Term.keyedText, String.toList_append, String.toList_append, Term.toList_row,
    Term.toList_render, List.append_assoc]
  exact hread

/-- A key, an operator and values are read as a sentence of this form. -/
theorem parse_operatedText (hkey : key.Writable) (hleaf : key.isLeaf = true)
    (hoperator : (Term.word operator).Writable) {ds : List Derivation}
    (hvalues : List.Forall₂ ReadsAs (value :: values) ds) :
    parse (key.operatedText operator (value :: values)) =
      .ok (Sentence.operated key.token key.quote operator ds).built := by
  refine parse_of_spells ?_
  have hread := spells_before_equals hkey hleaf
    (spells_before_equals hoperator rfl (spells_row hvalues))
  rw [Term.operatedText, String.toList_append, String.toList_append, String.toList_append,
    String.toList_append, Term.toList_row, Term.toList_render, Term.toList_render]
  simp only [List.append_assoc]
  exact hread

/-- A call that is written out is read as the call. -/
theorem parse_callText (hoperator : (Term.word operator).Writable)
    (hvalues : ∀ t ∈ value :: values, t.Writable) :
    parse (Term.callText operator (value :: values)) = .ok (.call operator (value :: values)) := by
  have hproper : Token.Proper operator none := by
    cases hoperator with
    | leaf h => exact h
    | call h => exact h
  rw [Term.callText_eq_render]
  exact parse_render_of_writable (.call hproper hvalues)

/-- Values that are no single call with arguments are compared with the key. -/
theorem Sentence.built_equation (key : String) (quote : Option Quote) {ds : List Derivation}
    (h : ∀ name args, ds ≠ [.call name args]) :
    (Sentence.keyed key quote ds).built = .call "eq" (.leaf key quote :: Derivation.values ds) := by
  unfold built
  split
  · next heq => cases heq
  · next name args heq =>
    cases heq
    exact absurd rfl (h name args)
  · next heq =>
    cases heq
    rfl
  · next heq => cases heq

theorem parse_equation (hkey : key.Writable) (hleaf : key.isLeaf = true)
    (hvalues : ∀ t ∈ value :: values, t.Writable) (h : values ≠ [] ∨ value.isLeaf = true) :
    parse (key.keyedText (value :: values)) = .ok (.call "eq" (key :: value :: values)) := by
  -- a leaf is read as a text even if it is the only value, so it is no call in any case
  have hread : ∃ d ds, List.Forall₂ ReadsAs (value :: values) (d :: ds) ∧
      (d :: ds).map Derivation.term = value :: values ∧ ∀ name args, d :: ds ≠ [.call name args] := by
    obtain ⟨ds, hds, hterms⟩ := exists_readsAs_all fun t ht => hvalues t (List.mem_cons_of_mem value ht)
    rcases h with hne | hvalue
    · obtain ⟨d, hd⟩ := exists_readsAs (hvalues value List.mem_cons_self)
      refine ⟨d, ds, .cons hd hds, by rw [List.map_cons, hd.term_eq, hterms], fun name args heq => ?_⟩
      obtain ⟨_, rfl⟩ := List.cons.inj heq
      exact hne hterms.symm
    · have hd := readsAs_leaf (hvalues value List.mem_cons_self) hvalue
      refine ⟨_, ds, .cons hd hds, by rw [List.map_cons, hd.term_eq, hterms], fun name args heq => ?_⟩
      cases (List.cons.inj heq).1
  obtain ⟨d, ds, hds, hterms, hcall⟩ := hread
  rw [parse_keyedText hkey hleaf hds, Sentence.built_equation _ _ hcall,
    Derivation.values_eq_map (by rw [hterms]; exact List.cons_ne_nil _ _), hterms,
    Term.leaf_of_isLeaf hleaf]

/-- A single call with arguments takes the key as its first one. -/
theorem parse_keyed_call (hkey : key.Writable) (hleaf : key.isLeaf = true) (hvalue : value.Writable)
    (hcall : value.children ≠ []) :
    parse (key.keyedText [value]) = .ok (.call value.token (key :: value.children)) := by
  obtain ⟨d, hd⟩ := exists_readsAs hvalue
  rw [parse_keyedText hkey hleaf (.cons hd .nil)]
  obtain rfl := hd.term_eq
  cases d with
  | text text quote =>
    rw [Derivation.term_text] at hcall
    exact absurd rfl hcall
  | call name args =>
    rw [Derivation.term_call, Sentence.built, Term.leaf_of_isLeaf hleaf]
    rfl

/-- Shorthand and call form write the same term.  A key, an operator and values
are the call of the operator; a key and values are an equation, if there are
several or the only one is a leaf; and a key and a call with arguments are the
call with the key as its first argument. -/
theorem parse_shorthand_as_call (key : Term) (operator : String) (values : List Term)
    (hkey : Occurs key) (hleaf : key.isLeaf = true) (hoperator : Occurs (.word operator))
    (hvalues : ∀ v ∈ values, Occurs v) (hne : values ≠ []) :
    (parse (key.operatedText operator values) = .ok (.call operator (key :: values)) ∧
      parse (Term.callText operator (key :: values)) = .ok (.call operator (key :: values))) ∧
    ((2 ≤ values.length ∨ ∀ v ∈ values.head?, v.children = []) →
      parse (key.keyedText values) = .ok (.call "eq" (key :: values)) ∧
      parse (Term.callText "eq" (key :: values)) = .ok (.call "eq" (key :: values))) ∧
    ∀ value, values = [value] → value.children ≠ [] →
      parse (key.keyedText [value]) = .ok (.call value.token (key :: value.children)) ∧
      parse (Term.callText value.token (key :: value.children)) =
        .ok (.call value.token (key :: value.children)) := by
  have hwritable : ∀ v ∈ values, v.Writable := fun v hv => (hvalues v hv).writable
  have hargs : ∀ v ∈ key :: values, v.Writable := List.forall_mem_cons.2 ⟨hkey.writable, hwritable⟩
  obtain ⟨value, values, rfl⟩ := List.exists_cons_of_ne_nil hne
  refine ⟨⟨?_, parse_callText hoperator.writable hargs⟩, fun h => ⟨?_, ?_⟩, fun only hone hcall => ?_⟩
  · obtain ⟨ds, hds, hterms⟩ := exists_readsAs_all hwritable
    rw [parse_operatedText hkey.writable hleaf hoperator.writable hds, Sentence.built,
      Derivation.values_eq_map (by rw [hterms]; exact hne), hterms, Term.leaf_of_isLeaf hleaf]
  · refine parse_equation hkey.writable hleaf hwritable (h.imp (fun hlong hnil => ?_) fun hhead => ?_)
    · rw [hnil] at hlong
      exact absurd hlong (Nat.not_succ_le_self 1)
    · exact List.isEmpty_iff.2 (hhead value rfl)
  · exact parse_callText (.leaf proper_eq) hargs
  · obtain ⟨rfl, rfl⟩ := List.cons.inj hone
    have hvalue := hwritable value List.mem_cons_self
    refine ⟨parse_keyed_call hkey.writable hleaf hvalue hcall, parse_callText ?_ ?_⟩
    · exact hvalue.word_of_call hcall
    · exact List.forall_mem_cons.2 ⟨hkey.writable, fun a ha => hvalue.child ha⟩

/-- A call whose arguments have quotes, blanks at their edges, commas and `=` signs. -/
def edged : Term :=
  .call "g" [.leaf "it's" (some .double), .word " x=y", .call "f" [.word "a=b", .word ","],
    .leaf " " (some .single)]

theorem parse_shorthand_of_edged_words :
    parse "\"it's\"=\\ x\\=y=f(a\\=b,\\,),' '" =
        .ok (.call " x=y" [.leaf "it's" (some .double), .call "f" [.word "a=b", .word ","],
          .leaf " " (some .single)]) ∧
      parse "\\ x\\=y(\"it's\",f(a\\=b,\\,),' ')" =
        .ok (.call " x=y" [.leaf "it's" (some .double), .call "f" [.word "a=b", .word ","],
          .leaf " " (some .single)]) ∧
      parse "\"it's\"=f(a\\=b,\\,)" =
        .ok (.call "f" [.leaf "it's" (some .double), .word "a=b", .word ","]) ∧
      parse "f(\"it's\",a\\=b,\\,)" =
        .ok (.call "f" [.leaf "it's" (some .double), .word "a=b", .word ","]) := by
  have hparse : parse "g(\"it's\",\\ x\\=y,f(a=b,\\,),' ')" = .ok edged :=
    eq_ok_of_toOption (by decide +kernel)
  have hoccurs : ∀ t ∈ edged.children, Occurs t := fun t ht =>
    ⟨_, edged, hparse, Term.mem_subterms_of_child ht t.mem_subterms_self⟩
  have hkey := hoccurs (.leaf "it's" (some .double)) (by decide)
  have hoperator := hoccurs (.word " x=y") (by decide)
  have hcall := hoccurs (.call "f" [.word "a=b", .word ","]) (by decide)
  have hblank := hoccurs (.leaf " " (some .single)) (by decide)
  have hpair : ∀ t ∈ [.call "f" [.word "a=b", .word ","], .leaf " " (some .single)], Occurs t :=
    List.forall_mem_cons.2 ⟨hcall, List.forall_mem_singleton.2 hblank⟩
  obtain ⟨⟨hshort, hlong⟩, _⟩ := parse_shorthand_as_call _ _ _ hkey rfl hoperator hpair
    (List.cons_ne_nil _ _)
  obtain ⟨_, _, hone⟩ := parse_shorthand_as_call _ _ _ hkey rfl hoperator
    (List.forall_mem_singleton.2 hcall) (List.cons_ne_nil _ _)
  obtain ⟨hshort', hlong'⟩ := hone _ rfl (List.cons_ne_nil _ _)
  have htexts : (Term.leaf "it's" (some .double)).operatedText " x=y"
      [.call "f" [.word "a=b", .word ","], .leaf " " (some .single)] =
        "\"it's\"=\\ x\\=y=f(a\\=b,\\,),' '" ∧
      Term.callText " x=y" [.leaf "it's" (some .double), .call "f" [.word "a=b", .word ","],
        .leaf " " (some .single)] = "\\ x\\=y(\"it's\",f(a\\=b,\\,),' ')" ∧
      (Term.leaf "it's" (some .double)).keyedText [.call "f" [.word "a=b", .word ","]] =
        "\"it's\"=f(a\\=b,\\,)" ∧
      Term.callText "f" [.leaf "it's" (some .double), .word "a=b", .word ","] =
        "f(\"it's\",a\\=b,\\,)" := by decide +kernel
  obtain ⟨hoperated, hcalled, hkeyed, hsingle⟩ := htexts
  rw [hoperated] at hshort
  rw [hcalled] at hlong
  rw [hkeyed] at hshort'
  refine ⟨hshort, hlong, hshort', ?_⟩
  rw [← hsingle]
  exact hlong'

end Fragment
end ResourceQuery

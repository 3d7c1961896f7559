import ResourceQuery.Proofs.Token.Texts

set_option autoImplicit false

/-!
# Tokens: every token has a text that can be written back

A lexeme leaves no escape open, so the texts of quoted and bare stretches can be
unescaped piece by piece.  Blanks get into a bare text only between two
stretches, and no stretch holds a line feed; so none stands at an end of the
text.
-/

namespace ResourceQuery
namespace Token

/-! ## Stretches without an open escape -/

/-- Every backslash has a character after it that it takes with it. -/
inductive Closed : List Char → Prop where
  | nil : Closed []
  | plain {c : Char} {cs : List Char} (hc : c ≠ '\\') (h : Closed cs) : Closed (c :: cs)
  | escape {c : Char} {cs : List Char} (h : Closed cs) : Closed ('\\' :: c :: cs)

theorem Closed.append {a b : List Char} (ha : Closed a) (hb : Closed b) : Closed (a ++ b) := by
  induction ha with
  | nil => exact hb
  | plain hc _ ih => exact .plain hc ih
  | escape _ ih => exact .escape ih

theorem Closed.of_gap {gap : List Char} (h : ∀ c ∈ gap, Lexeme.isGap c = true) : Closed gap := by
  induction gap with
  | nil => exact .nil
  | cons c gap ih =>
    refine .plain ?_ (ih fun d hd => h d (List.mem_cons_of_mem c hd))
    rintro rfl
    exact absurd (h '\\' List.mem_cons_self) (by decide)

/-- Escapes are undone piece by piece. -/
theorem unescape_append {a : List Char} (ha : Closed a) (b : List Char) :
    unescape (a ++ b) = unescape a ++ unescape b := by
  induction ha with
  | nil => rfl
  | @plain c cs hc _ ih => rw [List.cons_append, unescape_plain hc, unescape_plain hc, ih]; rfl
  | @escape c cs _ ih =>
    rw [List.cons_append, List.cons_append]
    cases hstructural : isStructural c with
    | false => rw [unescape_pair hstructural, unescape_pair hstructural, ih]; rfl
    | true => rw [unescape_structural hstructural, unescape_structural hstructural, ih]; rfl

/-- Undoing escapes leaves a backslash only before what is not structural. -/
theorem paired_unescape {cs : List Char} (h : Closed cs) : Paired (unescape cs) := by
  induction h with
  | nil => exact .nil
  | @plain c cs hc _ ih => rw [unescape_plain hc]; exact .plain hc ih
  | @escape c cs _ ih =>
    cases hstructural : isStructural c with
    | false => rw [unescape_pair hstructural]; exact .pair hstructural ih
    | true =>
      rw [unescape_structural hstructural]
      refine .plain ?_ ih
      rintro rfl
      exact absurd hstructural (by decide)

theorem unescape_gap {gap : List Char} (h : ∀ c ∈ gap, Lexeme.isGap c = true) :
    unescape gap = gap := by
  induction gap with
  | nil => rfl
  | cons c gap ih =>
    have hc : c ≠ '\\' := by
      rintro rfl
      exact absurd (h '\\' List.mem_cons_self) (by decide)
    rw [unescape_plain hc, ih fun d hd => h d (List.mem_cons_of_mem c hd)]

/-- A stretch that leaves no escape open and stands for no line feed. -/
structure Solid (cs : List Char) : Prop where
  closed : Closed cs
  noLine : ∀ c ∈ unescape cs, c ≠ '\n'

theorem Solid.append {a b : List Char} (ha : Solid a) (hb : Solid b) : Solid (a ++ b) where
  closed := ha.closed.append hb.closed
  noLine := by
    rw [unescape_append ha.closed]
    intro c hc
    exact (List.mem_append.1 hc).elim (ha.noLine c) (hb.noLine c)

/-- A step of a bare stretch leaves no escape open. -/
theorem solid_step {u : List Char} (h : Lexeme.Step u) : Solid u := by
  cases h with
  | @plain c hgap hreserved =>
    have hback : c ≠ '\\' := by rintro rfl; exact absurd hreserved (by decide)
    have hline : c ≠ '\n' := by rintro rfl; exact absurd hgap (by decide)
    refine ⟨.plain hback .nil, ?_⟩
    rw [unescape_plain hback]
    simpa [unescape] using hline
  | @escape c hline =>
    refine ⟨.escape .nil, ?_⟩
    cases hstructural : isStructural c with
    | false => rw [unescape_pair hstructural]; simpa [unescape] using hline
    | true => rw [unescape_structural hstructural]; simpa [unescape] using hline

theorem solid_steps {cs : List Char} (h : Lexeme.Steps cs) : Solid cs := by
  induction h with
  | nil => exact ⟨.nil, by simp [unescape]⟩
  | cons hu _ ih => exact (solid_step hu).append ih

theorem unescape_ne_nil {cs : List Char} (h : cs ≠ []) : unescape cs ≠ [] := by
  fun_cases unescape cs <;> simp_all

theorem Closed.of_enclosed {q : Char} {inner : List Char} (h : Lexeme.Enclosed q inner) :
    Closed inner := by
  induction h with
  | nil => exact .nil
  | plain _ hback _ ih => exact .plain hback ih
  | escape _ _ ih => exact .escape ih

/-! ## Lexemes -/

/-- The characters of a lexeme of a kind. -/
def Shaped (body : List Char) : Lexeme.Kind → Prop
  | .bare | .equals => Solid body ∧ body ≠ []
  | .quoted q => ∃ inner, body = q.char :: (inner ++ [q.char]) ∧ Closed inner
  | .opening | .closing | .comma => True

theorem shaped_of_matches {kind : Lexeme.Kind} {body : List Char} (h : kind.Matches body) :
    Shaped body kind := by
  cases kind with
  | opening | closing | comma => trivial
  | equals =>
    obtain rfl : body = ['='] := h
    exact ⟨⟨.plain (by decide) .nil, by simp [unescape]⟩, by simp⟩
  | quoted q =>
    obtain ⟨inner, rfl, hinner⟩ := h
    exact ⟨inner, rfl, .of_enclosed hinner⟩
  | bare => exact ⟨solid_steps h.2, h.1⟩

/-- Every lexeme of a source has the shape of its kind. -/
theorem shaped_scan (position : Nat) (cs : List Char) :
    ∀ lexeme ∈ (Lexeme.scan position cs).1,
      Shaped lexeme.body lexeme.kind ∧ ∀ c ∈ lexeme.gap, Lexeme.isGap c = true := by
  fun_induction Lexeme.scan position cs with
  | case1 position cs hcs => simp
  | case2 position cs gap c tail hcs start hnone => simp
  | case3 position cs gap c tail hcs start kind body rest hsome lexemes fault heq ih =>
    intro lexeme hmem
    rcases List.mem_cons.1 hmem with rfl | hmem
    · have hmatches := Lexeme.matches_of_first? hsome
      exact ⟨shaped_of_matches hmatches, List.all_eq_true.1 List.all_takeWhile⟩
    · rw [heq] at ih
      exact ih lexeme hmem

/-! ## Tokens -/

/-- A text under way stands for a text that may end here. -/
def Run.Fit (r : Run) : Prop := Closed r.chars ∧ Edged (unescape r.chars)

/-- A stretch without line feeds has none at its ends. -/
theorem edged_of_solid {body : List Char} (h : Solid body) (hne : body ≠ []) :
    Edged (unescape body) where
  nonempty := unescape_ne_nil hne
  head hline := h.noLine '\n' (List.mem_of_head? hline) rfl
  last hline := h.noLine '\n' (List.mem_of_getLast? hline) rfl

/-- Texts whose ends are no line feeds may be joined by anything. -/
theorem Edged.append {a b : List Char} (ha : Edged a) (gap : List Char) (hb : Edged b) :
    Edged (a ++ gap ++ b) where
  nonempty := by simp [ha.nonempty]
  head := by
    have hne := ha.nonempty
    have hhead := ha.head
    cases a with
    | nil => exact absurd rfl hne
    | cons c a => simpa using hhead
  last := by
    have hlast := hb.last
    rw [List.getLast?_append]
    cases hb' : b.getLast? with
    | none => exact absurd (List.getLast?_eq_none_iff.1 hb') hb.nonempty
    | some c => rw [hb'] at hlast; exact hlast

/-- A text that goes on with a stretch may end behind it. -/
theorem Run.fit_extend {run : Option Run} (hrun : ∀ r ∈ run, r.Fit) (position : Nat)
    {gap body : List Char} (hgap : ∀ c ∈ gap, Lexeme.isGap c = true) (hbody : Solid body)
    (hne : body ≠ []) : (Run.extend run position gap body).Fit := by
  cases run with
  | none => exact ⟨hbody.closed, edged_of_solid hbody hne⟩
  | some r =>
    obtain ⟨hclosed, hedged⟩ := hrun r rfl
    refine ⟨(hclosed.append (.of_gap hgap)).append hbody.closed, ?_⟩
    show Edged (unescape (r.chars ++ gap ++ body))
    rw [List.append_assoc, unescape_append hclosed, unescape_append (.of_gap hgap),
      unescape_gap hgap, ← List.append_assoc]
    exact hedged.append gap (edged_of_solid hbody hne)

/-- The text of a token can be written back. -/
def HasProperText (token : Token) : Prop :=
  ∀ text quote, token.kind = .text text quote → Proper text quote

theorem Run.properText_token {r : Run} (h : r.Fit) : HasProperText r.token := by
  intro text quote hkind
  cases hkind
  show Paired _ ∧ Edged _
  rw [String.toList_ofList]
  exact ⟨paired_unescape h.1, h.2⟩

section Stream

variable {fit : Run → Prop} {good : Token → Prop}

theorem forall_mem_cons {token : Token} {s : Stream} (htoken : good token)
    (hs : ∀ t ∈ s.1, good t) : ∀ t ∈ (s.cons token).1, good t := by
  intro t ht
  rcases List.mem_cons.1 ht with rfl | ht
  · exact htoken
  · exact hs t ht

theorem forall_mem_emit (hfit : ∀ r, fit r → good r.token) {run : Option Run} {s : Stream}
    (hrun : ∀ r ∈ run, fit r) (hs : ∀ t ∈ s.1, good t) : ∀ t ∈ (Run.emit run s).1, good t := by
  cases run with
  | none => exact hs
  | some r => exact forall_mem_cons (hfit r (hrun r rfl)) hs

/-- What is kept while a text is under way, and holds of texts in quotes and of
punctuation, holds of every token. -/
theorem forall_mem_ofLexemes (hfit : ∀ r, fit r → good r.token)
    (hpunctuation : ∀ (kind : Kind) (start stop : Nat), (∀ text quote, kind ≠ .text text quote) →
      good ⟨kind, start, stop⟩)
    (fault : Option LexicalFault) (lexemes : List Lexeme)
    (hextend : ∀ lexeme ∈ lexemes, lexeme.kind = .bare ∨ lexeme.kind = .equals →
      ∀ (run : Option Run) (position : Nat), (∀ r ∈ run, fit r) →
        fit (Run.extend run position lexeme.gap lexeme.body))
    (hquoted : ∀ lexeme ∈ lexemes, ∀ q, lexeme.kind = .quoted q → ∀ start stop,
      good ⟨.text (String.ofList (unescape (unquoted lexeme.body))) (some q), start, stop⟩) :
    ∀ (position depth : Nat) (run : Option Run), (∀ r ∈ run, fit r) →
      ∀ token ∈ (ofLexemes fault position depth run lexemes).1, good token := by
  induction lexemes with
  | nil =>
    intro position depth run hrun token htoken
    cases run with
    | none => cases htoken
    | some r =>
      cases fault with
      | some f => cases htoken
      | none => rw [List.mem_singleton.1 htoken]; exact hfit r (hrun r rfl)
  | cons lexeme lexemes ih =>
    intro position depth run hrun
    obtain ⟨kind, gap, body⟩ := lexeme
    have hnext := ih (fun lexeme hmem => hextend lexeme (List.mem_cons_of_mem _ hmem))
      fun lexeme hmem => hquoted lexeme (List.mem_cons_of_mem _ hmem)
    have hemit := fun {s : Stream} (hs : ∀ t ∈ s.1, good t) => forall_mem_emit hfit hrun hs
    -- a lexeme continues the text under way, which stays fit, or it ends the text and starts anew
    have hgoes : kind = .bare ∨ kind = .equals →
        ∀ r ∈ some (Run.extend run position gap body), fit r := by
      rintro hkind r hr
      cases hr
      exact hextend _ List.mem_cons_self hkind run position hrun
    rw [ofLexemes_cons]
    cases kind with
    | bare => exact hnext _ depth _ (hgoes (.inl rfl))
    | equals =>
      cases depth with
      | zero =>
        exact hemit (forall_mem_cons (hpunctuation .equals _ _ (by simp)) (hnext _ 0 none (by simp)))
      | succ depth => exact hnext _ (depth + 1) _ (hgoes (.inr rfl))
    | comma =>
      cases depth with
      | zero => exact hemit (hnext _ 0 none (by simp))
      | succ depth =>
        exact hemit (forall_mem_cons (hpunctuation .comma _ _ (by simp))
          (hnext _ (depth + 1) none (by simp)))
    | opening =>
      exact hemit (forall_mem_cons (hpunctuation .opening _ _ (by simp))
        (hnext _ (depth + 1) none (by simp)))
    | closing =>
      cases depth with
      | zero => exact hemit fun t ht => absurd ht List.not_mem_nil
      | succ depth =>
        exact hemit (forall_mem_cons (hpunctuation .closing _ _ (by simp))
          (hnext _ depth none (by simp)))
    | quoted q =>
      exact hemit (forall_mem_cons (hquoted _ List.mem_cons_self q rfl _ _)
        (hnext _ depth none (by simp)))

end Stream

/-- The tokens of shaped lexemes have texts that can be written back. -/
theorem properText_ofLexemes (fault : Option LexicalFault) (lexemes : List Lexeme)
    (hlexemes : ∀ lexeme ∈ lexemes,
      Shaped lexeme.body lexeme.kind ∧ ∀ c ∈ lexeme.gap, Lexeme.isGap c = true) :
    ∀ (position depth : Nat) (run : Option Run), (∀ r ∈ run, r.Fit) →
      ∀ token ∈ (ofLexemes fault position depth run lexemes).1, HasProperText token := by
  refine forall_mem_ofLexemes (fun r => Run.properText_token)
    (fun kind start stop hkind text quote h => absurd h (hkind text quote)) fault lexemes
    (fun lexeme hmem hkind run position hrun => ?_) fun lexeme hmem q hkind start stop => ?_
  · obtain ⟨hshaped, hgap⟩ := hlexemes lexeme hmem
    have hsolid : Solid lexeme.body ∧ lexeme.body ≠ [] := by
      rcases hkind with hkind | hkind
      · rwa [hkind] at hshaped
      · rwa [hkind] at hshaped
    exact Run.fit_extend hrun position hgap hsolid.1 hsolid.2
  · obtain ⟨hshaped, _⟩ := hlexemes lexeme hmem
    rw [hkind] at hshaped
    obtain ⟨inner, hbody, hclosed⟩ := hshaped
    have hinner : unquoted lexeme.body = inner := by
      rw [hbody]
      simp [unquoted]
    intro text quote htext
    cases htext
    show Paired _
    rw [String.toList_ofList, hinner]
    exact paired_unescape hclosed

/-- Every token of a source has a text that can be written back. -/
theorem properText_tokenize {source : String} {tokens : List Token}
    (h : tokenize source = .ok tokens) : ∀ token ∈ tokens, HasProperText token := by
  unfold tokenize at h
  have hproper := properText_ofLexemes (Lexeme.scan 0 source.toList).2
    (Lexeme.scan 0 source.toList).1 (shaped_scan 0 source.toList) 0 0 none (by simp)
  change ∀ token ∈ (stream source).1, HasProperText token at hproper
  split at h
  · next ts hstream =>
    cases h
    rw [hstream] at hproper
    exact hproper
  · cases h

end Token
end ResourceQuery

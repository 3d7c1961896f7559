import ResourceQuery.Proofs.Fragment.Joining
import ResourceQuery.Proofs.Query.Parts

set_option autoImplicit false

/-!
# Query: terms that fit a clause

A term fits a clause if its word belongs to the clause, the clause takes it
without a change, and its text is one fragment.  The texts of such terms, one
after the other, bring each of them to its clause as it stands.

That a term comes back as it stands has three parts: its text is not divided and
is read as the term, its word leads it to the clause, and the clause takes it
without a change.
-/

namespace ResourceQuery

open Fragment (Undivided Trimmed)
open Store (Loose Over)

/-! ## Words of clauses -/

/-- Structural characters are no capital letters. -/
theorem Token.toLower_of_isStructural {c : Char} (h : Token.isStructural c = true) :
    c.toLower = c := by
  have hlower : c.toLower =
      if h : 'A'.val ≤ c.val ∧ c.val ≤ 'Z'.val then c.toLower else c := by
    split
    · rfl
    · next hcapital => exact dif_neg hcapital
  rw [hlower, dif_neg]
  rintro ⟨hlow, hhigh⟩
  have hlow : 65 ≤ c.toNat := hlow
  have hhigh : c.toNat ≤ 90 := hhigh
  have hrange : ∀ {d : Char}, d.toNat < 65 → (c == d) = false := by
    intro d hd
    rw [beq_eq_false_iff_ne]
    rintro rfl
    omega
  have hblank : Text.isBlank c = false := by
    simp only [Text.isBlank, Text.blankRanges, List.any_cons, List.any_nil, Bool.or_false,
      Bool.or_eq_false_iff, Bool.and_eq_false_iff, decide_eq_false_iff_not]
    omega
  simp only [isStructural, hblank, hrange (show ('(').toNat < 65 by decide),
    hrange (show (')').toNat < 65 by decide), hrange (show (',').toNat < 65 by decide),
    hrange (show ('=').toNat < 65 by decide), hrange (show ('\'').toNat < 65 by decide),
    hrange (show ('"').toNat < 65 by decide), Bool.or_false] at h
  cases h

namespace Clause

variable {token : String} {kind : Clause}

/-- The clause of a word does not depend on its letter case. -/
theorem owner?_congr {word : String} (h : Text.lower word = Text.lower token) :
    owner? word = owner? token := by
  have hwords : (fun kind : Clause => kind.hasWord word) = fun kind => kind.hasWord token := by
    funext kind
    simp only [hasWord, Text.sameWord, h]
  rw [owner?, owner?, hwords]

/-- The words of the clauses have characters, and none of them is structural. -/
theorem plain_words (kind : Clause) : (kind.words.all fun word =>
    !word.toList.isEmpty && word.toList.all fun c => !Token.isStructural c.toLower) = true := by
  cases kind <;> decide +kernel

theorem plain_of_owner? (h : owner? token = some kind) :
    token.toList ≠ [] ∧ ∀ c ∈ token.toList, Token.isStructural c = false := by
  rw [owner?] at h
  have hhas : kind.hasWord token = true := List.find?_some (p := fun k => hasWord k token) h
  obtain ⟨word, hmem, hsame⟩ := List.any_eq_true.1 hhas
  have hplain := List.all_eq_true.1 kind.plain_words word hmem
  simp only [Bool.and_eq_true, Bool.not_eq_true', List.isEmpty_eq_false_iff,
    List.all_eq_true] at hplain
  have hchars : word.toList.map Char.toLower = token.toList.map Char.toLower := by
    have hlower := (Text.sameWord_iff _ _).1 hsame
    simpa [Text.lower] using congrArg String.toList hlower
  refine ⟨fun hnil => ?_, fun c hc => ?_⟩
  · rw [hnil, List.map_nil, List.map_eq_nil_iff] at hchars
    exact hplain.1 hchars
  · have hlowered : c.toLower ∈ word.toList.map Char.toLower := by
      rw [hchars]
      exact List.mem_map_of_mem hc
    obtain ⟨d, hd, hdc⟩ := List.mem_map.1 hlowered
    rw [Bool.eq_false_iff]
    intro hstructural
    have hfalse := hplain.2 d hd
    rw [hdc, Token.toLower_of_isStructural hstructural, hstructural] at hfalse
    cases hfalse

end Clause

/-- A word without structural characters is written as it is. -/
theorem Term.writeBare_plain {cs : List Char} (hne : cs ≠ [])
    (h : ∀ c ∈ cs, Token.isStructural c = false) : writeBare cs = cs := by
  have hchar : ∀ {c : Char} (edge : Bool), Token.isStructural c = false →
      writeBareChar edge c = [c] := by
    intro c edge hc
    rw [writeBareChar, hc]
    rfl
  have hrest : ∀ {cs : List Char}, (∀ c ∈ cs, Token.isStructural c = false) →
      writeBareRest cs = cs := by
    intro cs
    induction cs with
    | nil => exact fun _ => rfl
    | cons c cs ih =>
      intro hcs
      rw [writeBareRest_cons, hchar _ (hcs c List.mem_cons_self),
        ih fun d hd => hcs d (List.mem_cons_of_mem c hd)]
      rfl
  cases cs with
  | nil => exact absurd rfl hne
  | cons c cs =>
    rw [writeBare, hchar _ (h c List.mem_cons_self),
      hrest fun d hd => h d (List.mem_cons_of_mem c hd)]
    rfl

/-- No blank stands at an end of a term whose word belongs to a clause. -/
theorem Term.trimmed_write {t : Term} {kind : Clause} (hbare : t.quote = none)
    (howned : Clause.owner? t.token = some kind) : Trimmed t.write := by
  obtain ⟨token, quote, children⟩ := t
  obtain rfl : quote = none := hbare
  obtain ⟨hne, hplain⟩ : token.toList ≠ [] ∧ ∀ c ∈ token.toList, Token.isStructural c = false :=
    Clause.plain_of_owner? howned
  have hblank : ∀ c ∈ token.toList, Text.isBlank c = false := by
    intro c hc
    have hc := hplain c hc
    simp only [Token.isStructural, Bool.or_eq_false_iff] at hc
    exact hc.2
  have hword : writeWord token none = token.toList := writeBare_plain hne hplain
  have hhead : ∀ rest, ∀ c ∈ (token.toList ++ rest).head?, Text.isBlank c = false := by
    intro rest c hc
    rw [List.head?_append_of_ne_nil _ hne] at hc
    exact hblank c (List.mem_of_mem_head? hc)
  cases children with
  | nil =>
    rw [write, hword]
    refine ⟨hne, ?_, fun c hc => hblank c (List.mem_of_mem_getLast? hc)⟩
    have hhead := hhead []
    rwa [List.append_nil] at hhead
  | cons child children =>
    rw [write, hword]
    refine ⟨by simp, ?_, ?_⟩
    · rw [List.append_assoc, List.append_assoc]
      exact hhead _
    · intro c hc
      rw [List.getLast?_concat] at hc
      cases hc
      decide

/-! ## Terms that a clause takes as they stand -/

/-- The clause takes the term without a change. -/
def Clause.Takes : Clause → Term → Prop
  | .filter, t => t.setsParameter = false ∧ t.role ≠ some .all ∧
      ∀ u ∈ t.subterms, u.role ≠ some .key ∧ (u.role = some .equation → u.children.length ≤ 2)
  | .page, t => ∃ setting, Paging.setting t = .ok setting
  | .order, t => ColumnList.checkOrder t = .ok ()
  | .group, t => ColumnList.checkGroup t = .ok ()
  | .select, t => Text.lower t.token ∉
        ["count", "sum", "min", "max", "aggregate", "function", "countascol"] ∧
      (Text.lower t.token = "as" → t.children.length = 2)

/-- The term is a fragment of its own that goes to the clause, and stays there as it is. -/
structure Clause.Fits (kind : Clause) (t : Term) : Prop where
  undivided : Undivided t
  owned : Clause.owner? t.token = some kind
  bare : t.quote = none
  taken : kind.Takes t

theorem Clause.Fits.setsParameter_eq {kind : Clause} {t : Term} (h : kind.Fits t) :
    t.setsParameter = false := by
  by_cases hkind : kind = .filter
  · subst hkind
    exact h.taken.1
  · -- the word of an equation belongs to the filter
    have hword : t.hasToken "eq" = false := by
      rw [Bool.eq_false_iff]
      intro hword
      simp only [Term.hasToken, Bool.and_eq_true] at hword
      have howner := owner?_congr ((Text.sameWord_iff _ _).1 hword.2)
      rw [h.owned] at howner
      exact hkind (Option.some.inj (howner.trans (by decide +kernel)))
    rw [Term.setsParameter, hword]
    cases t.children <;> rfl

theorem Condition.foldl_widenAt_narrow {s : Store} {ids : List WordId}
    (h : ∀ x ∈ ids, (s.children x).length ≤ 2) : ids.foldl widenAt s = s := by
  induction ids with
  | nil => rfl
  | cons id ids ih =>
    have hnarrow := Nat.not_lt_of_le (h id List.mem_cons_self)
    rw [List.foldl_cons, widenAt, if_neg hnarrow]
    exact ih fun x hx => h x (List.mem_cons_of_mem id hx)

/-- A selection term that is no aggregate is kept as it is. -/
theorem Selection.claim_plain {s : Store} {id : WordId} (hword : Text.lower (s.token id) ∉
      ["count", "sum", "min", "max", "aggregate", "function", "countascol"])
    (has : Text.lower (s.token id) = "as" → (s.children id).length = 2) :
    claim s id = (.ok (.only id), s) := by
  have hlabelled : Text.lower (s.token id) ∉ ["count", "sum", "min", "max"] := fun hmem =>
    hword (List.mem_append_left ["aggregate", "function", "countascol"] hmem)
  have hgrouped : ¬(Text.lower (s.token id) = "aggregate" ∨ Text.lower (s.token id) = "function") := by
    rintro (heq | heq)
    · exact hword (by rw [heq]; decide)
    · exact hword (by rw [heq]; decide)
  have hcounted : Text.lower (s.token id) ≠ "countascol" := fun heq =>
    hword (by rw [heq]; decide)
  rw [claim, if_neg hlabelled, if_neg hgrouped, if_neg hcounted, if_neg fun h => h.2 (has h.1)]

namespace Query

variable {s₀ : Store} {q q' : Query} {id : WordId} {kind : Clause}

/-- The filter takes a term that it has nothing to change in. -/
theorem claimFilter_fits (hs : q.store.WellFormed) (hid : id.index < q.store.size)
    (h : Clause.filter.Takes (q.store.read id)) :
    q.claimFilter id = (.ok (), { q with filter := q.filter ++ [id] }) := by
  obtain ⟨P, rfl, hP, hnodup⟩ := hs.exists_plot hid
  rw [hP.read_eq hnodup] at h
  obtain ⟨_, hroot, hbelow⟩ := h
  have hkeys : q.store.findAll P.id "_key" = [] :=
    Condition.findAll_key_eq_nil hs hid fun u hu => (hbelow u (hP.read_eq hnodup ▸ hu)).1
  have hnarrow : ∀ x ∈ q.store.findAll P.id "eq", (q.store.children x).length ≤ 2 := by
    intro x hx
    obtain ⟨Q, hQ, rfl, hrole⟩ := (Condition.mem_findAll_iff (r := .equation) hP hnodup).1 hx
    have hlength := (hbelow Q.term (Plot.mem_subterms_iff.2 ⟨Q, hQ, rfl⟩)).2 hrole
    rwa [(hP.under hQ).children_eq, List.length_map, ← List.length_map (f := Plot.term),
      ← Plot.children_term]
  have hwiden : Condition.widenEquations P.id q.store = q.store :=
    Condition.foldl_widenAt_narrow hnarrow
  have hand : q.store.hasToken P.id "and" = false := by
    rw [hP.hasToken_eq, Bool.eq_false_iff]
    exact fun hand => hroot ((Term.hasToken_word_iff (r := .all)).1 hand)
  unfold claimFilter Condition.claim Condition.resolveKeys
  rw [hkeys]
  simp only [Condition.resolveKeysAt, hwiden, Condition.conjuncts_other hand]

/-- A clause takes a term that it takes without a change. -/
theorem claim_fits (hs : q.store.WellFormed) (hid : id.index < q.store.size)
    (h : kind.Takes (q.store.read id)) :
    ∃ q', q.claim kind id = (.ok (), q') ∧ q'.store = q.store ∧ q'.collection = q.collection ∧
      ∀ other, q'.clause other = q.clause other ++ kind.only [id] other := by
  cases kind with
  | filter =>
    refine ⟨_, claimFilter_fits hs hid h, rfl, rfl, fun other => ?_⟩
    cases other <;> simp [clause, Clause.only]
  | page =>
    obtain ⟨setting, hsetting⟩ := h
    refine ⟨{ q with page := q.page.apply id setting }, ?_, rfl, rfl, fun other => ?_⟩
    · rw [claim, claimPage, hsetting]
    · cases other <;> simp [clause, Paging.terms_apply, Clause.only]
  | order =>
    have hcheck : ColumnList.checkOrder (q.store.read id) = .ok () := h
    refine ⟨{ q with order := q.order ++ [id] }, ?_, rfl, rfl, fun other => ?_⟩
    · rw [claim, claimOrder, hcheck]
    · cases other <;> simp [clause, Clause.only]
  | group =>
    have hcheck : ColumnList.checkGroup (q.store.read id) = .ok () := h
    refine ⟨{ q with group := q.group ++ [id] }, ?_, rfl, rfl, fun other => ?_⟩
    · rw [claim, claimGroup, hcheck]
    · cases other <;> simp [clause, Clause.only]
  | select =>
    obtain ⟨hword, has⟩ := h
    rw [q.store.token_read] at hword has
    rw [hs.children_read hid, List.length_map] at has
    refine ⟨{ q with select := q.select ++ [id] }, ?_, rfl, rfl, fun other => ?_⟩
    · rw [claim, claimSelect, Selection.claim_plain hword has]
      rfl
    · cases other <;> simp [clause, Clause.only]

/-! ## One step -/

/-- The terms of a clause that gains words, when the words of the query are left alone. -/
theorem terms_append (hq : q.Sound) (hext : q.store.Extends q'.store) {ids : List WordId}
    (h : q'.clause kind = q.clause kind ++ ids) :
    q'.terms kind = q.terms kind ++ ids.map q'.store.read := by
  have hheld : ∀ x ∈ q.clause kind, x ∈ q.held := fun x hx =>
    List.mem_flatMap.2 ⟨kind, by cases kind <;> decide, hx⟩
  have hold : ∀ x ∈ q.clause kind, q'.store.read x = q.store.read x := fun x hx =>
    hext.read_eq hq.wellFormed (hq.loose x (hheld x hx)).lt
  rw [terms, terms, h, List.map_append, List.map_congr_left hold]

/-- The text of a term that fits a clause brings the term to the clause. -/
theorem add_render (hq : q.Sound) {t : Term} (h : kind.Fits t) :
    ∃ q', q.add t.render = (.ok (), q') ∧ q'.Sound ∧
      ∀ other, q'.terms other = q.terms other ++ if other = kind then [t] else [] := by
  obtain ⟨id, s, hparse, hread⟩ :=
    Store.read_parse (s := q.store) (Fragment.parse_render_of_writable h.undivided.writable)
  have hself := Over.refl hq.wellFormed
  have hover : q.store.Over s := by
    have hedited := Store.edited_parse hq.wellFormed (Nat.le_refl _) t.render
    rw [hparse] at hedited
    exact hedited.over hself
  have hid : Loose q.store.size s id := Store.loose_parse (Nat.le_refl _) hparse
  have hlift : liftParameter s id = (id, s) :=
    liftParameter_eq_self hover.wellFormed hid.lt (by rw [hread]; exact h.setsParameter_eq)
  have howner : (Clause.owner? (s.token id)).filter (fun _ => !s.isQuoted id) = some kind := by
    rw [← s.token_read, ← s.isQuoted_read, hread, h.owned, Term.isQuoted, h.bare]
    rfl
  obtain ⟨q', hclaim, hstore, hcollection, hclause⟩ := claim_fits
    (q := { q with store := s }) hover.wellFormed hid.lt (by rw [hread]; exact h.taken)
  have hadd : q.add t.render = (.ok (), q') := by
    unfold add
    rw [hparse]
    unfold addTerm
    simp only [hlift, howner]
    exact hclaim
  have hsound : q'.Sound := by
    have hclaimed := (claimed_add hself t.render).sound hq hself
    rwa [hadd] at hclaimed
  refine ⟨q', hadd, hsound, fun other => ?_⟩
  have hclause' : q'.clause other = q.clause other ++ kind.only [id] other := by
    rw [hclause]
    cases other <;> rfl
  rw [terms_append hq (hstore ▸ hover.extension) hclause', hstore, Clause.only]
  split
  · rw [List.map_singleton, hread]
  · rfl

/-- The texts of terms that fit their clauses, one after the other. -/
theorem addAll_render (parts : List (Clause × Term)) (h : ∀ p ∈ parts, p.1.Fits p.2) :
    ∀ {q : Query}, q.Sound → ∃ q', q.addAll (parts.map fun p => p.2.render) = .ok q' ∧
      ∀ kind, q'.terms kind = q.terms kind ++ (parts.filter fun p => p.1 = kind).map Prod.snd := by
  induction parts with
  | nil =>
    intro q _
    exact ⟨q, rfl, fun kind => (List.append_nil _).symm⟩
  | cons p parts ih =>
    intro q hq
    obtain ⟨q₁, hadd, hq₁, hterms⟩ := add_render hq (h p List.mem_cons_self)
    obtain ⟨q₂, hrest, hterms'⟩ := ih (fun r hr => h r (List.mem_cons_of_mem p hr)) hq₁
    refine ⟨q₂, ?_, fun kind => ?_⟩
    · rw [List.map_cons, addAll, hadd]
      exact hrest
    · rw [hterms', hterms, List.append_assoc, List.filter_cons]
      by_cases hkind : kind = p.1
      · simp [hkind]
      · simp [hkind, Ne.symm hkind]

end Query
end ResourceQuery

import ResourceQuery.Catalog.Sample
import ResourceQuery.Proofs.Query.Window

set_option autoImplicit false

/-!
# Query: arguments that count by their words

Numbers of paging terms, and the index and the keys of key terms, are taken from
the words of the arguments.  What stands under such an argument is not looked
at, so a call there counts as its own word: the term is accepted or refused, and
changes the query, as if the word stood alone.

For keys, a term is compared with the one whose key arguments are clipped to
their words; expanding keys does not tell the two apart (`expand_clip`).  For
numbers, the kinds of paging terms are gone through one by one.
-/

namespace ResourceQuery

/-- The word of a term, without its arguments. -/
def Term.bare (t : Term) : Term := .leaf t.token t.quote

/-- The term with the words of its arguments alone. -/
def Term.shallow (t : Term) : Term := .node t.token t.quote (t.children.map Term.bare)

/-! ## Keys -/

namespace Condition

variable {c : Collection} {t : Term}

/-- Keys are read from words. -/
theorem keyComparisons_shallow (c : Collection) (t : Term) :
    keyComparisons c t.shallow = keyComparisons c t := by
  unfold keyComparisons Term.shallow
  rw [Term.children_node]
  rcases t.children with _ | ⟨index, _ | ⟨key, keys⟩⟩
  · rfl
  · rfl
  · rw [List.map_cons, List.map_cons]
    dsimp only
    simp only [← List.map_cons, List.mapM_map]
    rfl

/-- The term with the words of the arguments of its key terms alone. -/
def clip : Term → Term := Term.fold fun t below =>
  if t.role = some .key then t.shallow else .node t.token t.quote below

theorem clip_node {token : String} {quote : Option Quote} {ts : List Term}
    (hrole : (Term.node token quote ts).role ≠ some .key) :
    clip (.node token quote ts) = .node token quote (ts.map clip) := by
  rw [clip, Term.fold_eq, if_neg hrole]
  rfl

/-- What keys stand for is the same for their words. -/
theorem expand_clip (hkeys : KeysResolve c t) : expand c (clip t) = expand c t := by
  induction t using Term.induction with
  | node token quote ts ih =>
    by_cases hkey : (Term.node token quote ts).role = some .key
    · obtain ⟨e, he⟩ := hkeys _ (Term.mem_subterms_self _) hkey
      have hclip : clip (.node token quote ts) = (Term.node token quote ts).shallow := by
        rw [clip, Term.fold_eq, if_pos hkey]
      have hshallow : (Term.node token quote ts).shallow.role = some .key := hkey
      rw [hclip, expand_key hkey he, expand_key hshallow ((keyComparisons_shallow c _).trans he)]
    · have hclipped : (Term.node token quote (ts.map clip)).role ≠ some .key := hkey
      rw [clip_node hkey, expand_node hclipped, expand_node hkey, List.map_map]
      refine congrArg (Term.node token quote) (List.map_congr_left fun u hu => ?_)
      exact ih u hu fun v hv => hkeys v (Term.mem_subterms_of_child hu hv)

/-- A term contributes to the filter what the words of its keys say. -/
theorem contribution_ok_iff {ts : List Term} : contribution c t = .ok ts ↔
    (∀ k ∈ keyTerms t, ∃ e, keyComparisons c k.shallow = .ok e) ∧ ts = normalForm c (clip t) := by
  have hnormal : KeysResolve c t → normalForm c (clip t) = normalForm c t := by
    intro hkeys
    rw [normalForm, normalForm, expand_clip hkeys]
  unfold contribution
  simp only [keyComparisons_shallow]
  constructor
  · intro h
    obtain ⟨es, hes, rfl⟩ := map_eq_ok_iff.1 h
    exact ⟨exists_of_mem_mapM hes, (hnormal (keysResolve_of_mapM hes)).symm⟩
  · rintro ⟨hall, rfl⟩
    obtain ⟨es, hes⟩ := exists_mapM_of_forall hall
    exact map_eq_ok_iff.2 ⟨es, hes, (hnormal (keysResolve_of_mapM hes)).symm⟩

end Condition

/-! ## Numbers -/

namespace Paging

/-- The word of the only argument writes the number, and the number is large enough. -/
def Kind.Writes (kind : Kind) (t : Term) (n : Nat) : Prop :=
  ∃ word, t.children.map Term.token = [word] ∧ Number.word? (Text.trim word) = some n ∧
    kind.least ≤ n

theorem Kind.writes_iff {kind : Kind} {t : Term} {n : Nat} :
    kind.Writes t n ↔ number? t = some n ∧ kind.least ≤ n := by
  unfold Kind.Writes number?
  rcases t.children with _ | ⟨value, _ | ⟨other, others⟩⟩
  · simp
  · simp
  · simp

theorem exists_number {t : Term} {n least : Nat} (h : number? t = some n) (hleast : least ≤ n) :
    ∃ m, number t least = .ok m := by
  unfold number? at h
  unfold number
  rcases hchildren : t.children with _ | ⟨value, _ | ⟨other, others⟩⟩
  · rw [hchildren] at h
    cases h
  · rw [hchildren] at h
    dsimp only at h ⊢
    rw [h, Option.filter_some, if_pos (decide_eq_true hleast)]
    exact ⟨_, rfl⟩
  · rw [hchildren] at h
    cases h

/-- A term of a kind with a number that is large enough is a setting. -/
theorem exists_setting {kind : Kind} {t : Term} {n : Nat} (hkind : kind.has t = true)
    (h : kind.Writes t n) : ∃ set, setting t = .ok set := by
  obtain ⟨hnumber, hleast⟩ := Kind.writes_iff.1 h
  obtain ⟨m, hm⟩ := exists_number hnumber hleast
  have hmake : ∀ make : UInt64 → Setting, ∃ set, make <$> number t kind.least = .ok set :=
    fun make => ⟨make m, by rw [hm]; rfl⟩
  have hword : Text.lower t.token ∈ kind.words := List.contains_iff_mem.1 hkind
  unfold setting
  cases kind with
  | offset =>
    rw [List.mem_singleton.1 hword]
    exact hmake .offset
  | limit =>
    rw [List.mem_singleton.1 hword]
    exact hmake .limit
  | page =>
    rcases List.mem_cons.1 hword with hpage | hpageNum
    · rw [hpage]
      exact hmake .page
    · rw [List.mem_singleton.1 hpageNum]
      exact hmake .page
  | pageSize =>
    rw [List.mem_singleton.1 hword]
    exact hmake .pageSize

theorem exists_writes {kind : Kind} {t : Term} {set : Setting} (hkind : kind.has t = true)
    (h : setting t = .ok set) : ∃ n, kind.Writes t n := by
  rcases sets_of_setting h kind with ⟨hother, _⟩ | ⟨n, _, _, hnumber, hleast⟩
  · rw [hkind] at hother
    cases hother
  · exact ⟨n.toNat, Kind.writes_iff.2 ⟨hnumber, hleast⟩⟩

/-- Terms that set a number are paging terms. -/
theorem owner?_of_has {kind : Kind} {t : Term} (h : kind.has t = true) :
    Clause.owner? t.token = some .page := by
  have hwords : kind.words.all (fun w => Text.lower w == w && Clause.owner? w == some .page) =
      true := by
    cases kind <;> decide
  have hword := List.all_eq_true.1 hwords _ (List.contains_iff_mem.1 h)
  rw [Bool.and_eq_true, beq_iff_eq, beq_iff_eq] at hword
  rw [← Clause.owner?_congr hword.1]
  exact hword.2

end Paging

namespace Query

variable {c : Collection} {q : Query}

section Paging

variable {fragment : String} {t : Term} {kind : Paging.Kind}

theorem pageTerm?_of_setting (hparse : Fragment.parse fragment = .ok t)
    (hkind : kind.has t.lifted = true) (hbare : t.lifted.isQuoted = false) {set : Paging.Setting}
    (hset : Paging.setting t.lifted = .ok set) : pageTerm? fragment = some t.lifted := by
  rw [pageTerm?, hparse]
  change (some t).bind asPageTerm? = _
  rw [Option.bind_some, asPageTerm?, hset, if_pos ⟨Paging.owner?_of_has hkind, hbare, rfl⟩]

/-- A paging term with a number is accepted exactly if the word of its only argument writes one. -/
theorem add_paging_iff (hq : q.Sound) (hparse : Fragment.parse fragment = .ok t)
    (hkind : kind.has t.lifted = true) (hbare : t.lifted.isQuoted = false) :
    (q.add fragment).1 = .ok () ↔ ∃ n, kind.Writes t.lifted n := by
  constructor
  · intro h
    obtain ⟨ts, hts, _⟩ := map_eq_ok_iff.1 ((comes_add hq fragment).outcome.symm.trans h)
    rw [fragmentContribution, hparse, ok_bind, contribution, Paging.owner?_of_has hkind,
      hbare] at hts
    obtain ⟨set, hset, _⟩ := map_eq_ok_iff.1 hts
    exact Paging.exists_writes hkind hset
  · rintro ⟨n, hn⟩
    obtain ⟨set, hset⟩ := Paging.exists_setting hkind hn
    exact add_of_pageTerm hq (pageTerm?_of_setting hparse hkind hbare hset)

/-- The number that is written is set. -/
theorem value_add_paging (hq : Reached c q) (hparse : Fragment.parse fragment = .ok t)
    (hkind : kind.has t.lifted = true) (hbare : t.lifted.isQuoted = false) {n : Nat}
    (hn : kind.Writes t.lifted n) :
    ((q.add fragment).2.page.value kind).map UInt64.toNat = some n := by
  obtain ⟨set, hset⟩ := Paging.exists_setting hkind hn
  rw [(hq.add fragment).follows.value_eq kind, terms_page_add hq.sound,
    pageTerm?_of_setting hparse hkind hbare hset]
  exact (Paging.last_append_of_has _ hkind).trans (Paging.Kind.writes_iff.1 hn).1

end Paging

/-- The term that a term gives to the filter: itself, or what a selection hands on. -/
def filterTerm? (t : Term) : Option Term :=
  match (Clause.owner? t.lifted.token).filter fun _ => !t.lifted.isQuoted with
  | some .filter => some t.lifted
  | some .select =>
    (Selection.parts t.lifted).toOption.bind fun parts =>
      if parts.grouping = none then parts.filter else none
  | _ => none

/-- Besides what goes to the filter a term gives to the selection at most. -/
theorem contribution_of_filterTerm? {t u : Term} (h : filterTerm? t = some u) :
    ∃ rest : Clause → List Term, rest .filter = [] ∧ contribution c t =
      (fun ts kind => rest kind ++ Clause.filter.gives ts kind) <$> Condition.contribution c u := by
  unfold filterTerm? at h
  unfold contribution
  split at h
  · next howner =>
    obtain rfl := Option.some.inj h
    rw [howner]
    exact ⟨fun _ => [], rfl, rfl⟩
  · next howner =>
    rw [howner]
    obtain ⟨parts, hparts, h⟩ := Option.bind_eq_some_iff.1 h
    obtain ⟨hgrouping, hfilter⟩ := Option.ite_none_right_eq_some.1 h
    refine ⟨Clause.select.gives parts.terms, rfl, ?_⟩
    dsimp only [share]
    rw [eq_ok_of_toOption hparts, ok_bind, hgrouping, hfilter, handedShare, filterShare]
    cases Condition.contribution c u <;> rfl
  · cases h

/-- A term for the filter is accepted by the words of the arguments of its key
terms, and gives to the filter what they say. -/
theorem add_filter_iff (hq : Reached c q) {fragment : String} {t u : Term}
    (hparse : Fragment.parse fragment = .ok t) (hterm : filterTerm? t = some u) :
    ((q.add fragment).1 = .ok () ↔
      ∀ k ∈ Condition.keyTerms u, ∃ e, Condition.keyComparisons c k.shallow = .ok e) ∧
    ((q.add fragment).1 = .ok () → (q.add fragment).2.terms .filter =
      q.terms .filter ++ Condition.normalForm c (Condition.clip u)) := by
  obtain ⟨rest, hrest, hshare⟩ := contribution_of_filterTerm? (c := c) hterm
  have hcomes := comes_add hq.sound fragment
  have hcontribution : fragmentContribution q.collection fragment = contribution c t := by
    rw [fragmentContribution, hparse, ok_bind, hq.paged.collection_eq]
  rw [hcontribution, hshare] at hcomes
  constructor
  · rw [hcomes.outcome, map_eq_ok_iff]
    constructor
    · rintro ⟨_, hts, _⟩
      obtain ⟨ts, hts, _⟩ := map_eq_ok_iff.1 hts
      exact (Condition.contribution_ok_iff.1 hts).1
    · intro hkeys
      exact ⟨_, map_eq_ok_iff.2 ⟨_, Condition.contribution_ok_iff.2 ⟨hkeys, rfl⟩, rfl⟩, rfl⟩
  · intro hok
    rw [hcomes.outcome] at hok
    obtain ⟨given, hgiven, _⟩ := map_eq_ok_iff.1 hok
    obtain ⟨ts, hts, rfl⟩ := map_eq_ok_iff.1 hgiven
    obtain ⟨q', hadd, hterms⟩ := terms_add hq.sound
      (hcontribution.trans (hshare.trans hgiven))
    rw [hadd, hterms .filter, hrest, (Condition.contribution_ok_iff.1 hts).2]
    rfl

/-- What counts of the argument of a paging term, and of the index and the keys
of a key term, is the word.  A paging term is accepted exactly if it has one
argument and the word of that writes a number, which is then set; a term for the
filter exactly if the words of the arguments make up keys, and what it gives to
the filter is what it gives without anything under those words. -/
theorem add_counts_words (c : Collection) (q : Query) (hq : Reached c q) (fragment : String)
    (t : Term) (hparse : Fragment.parse fragment = .ok t) :
    (∀ kind : Paging.Kind, kind.has t.lifted = true → t.lifted.isQuoted = false →
      ((q.add fragment).1 = .ok () ↔ ∃ n, kind.Writes t.lifted n) ∧
      ∀ n, kind.Writes t.lifted n →
        ((q.add fragment).2.page.value kind).map UInt64.toNat = some n) ∧
    ∀ u, filterTerm? t = some u →
      ((q.add fragment).1 = .ok () ↔
        ∀ k ∈ Condition.keyTerms u, ∃ e, Condition.keyComparisons c k.shallow = .ok e) ∧
      ((q.add fragment).1 = .ok () → (q.add fragment).2.terms .filter =
        q.terms .filter ++ Condition.normalForm c (Condition.clip u)) := by
  refine ⟨fun kind hkind hbare => ⟨?_, fun n hn => ?_⟩, fun u hterm => ?_⟩
  · exact add_paging_iff hq.sound hparse hkind hbare
  · exact value_add_paging hq hparse hkind hbare hn
  · exact add_filter_iff hq hparse hterm

theorem add_counts_words_of_calls :
    (((new Catalog.Sample.orders).add "pageNum(7(x,y))").1 = .ok () ∧
      (((new Catalog.Sample.orders).add "pageNum(7(x,y))").2.page.value .page).map UInt64.toNat =
        some 7) ∧
    ((new Catalog.Sample.orders).add "not(_key(primaryIndex(a),10248(b)))").1 = .ok () ∧
    ((new Catalog.Sample.orders).add "not(_key(primaryIndex(a),10248(b)))").2.terms .filter =
      [.call "not" [.call "eq" [.word "orderId", .word "10248"]]] := by
  have hnew := Reached.new (c := Catalog.Sample.orders)
  have hpage : Fragment.parse "pageNum(7(x,y))" =
      .ok (.call "pageNum" [.call "7" [.word "x", .word "y"]]) :=
    eq_ok_of_toOption (by decide +kernel)
  let key := Term.call "_key" [.call "primaryIndex" [.word "a"], .call "10248" [.word "b"]]
  have hkey : Fragment.parse "not(_key(primaryIndex(a),10248(b)))" = .ok (.call "not" [key]) :=
    eq_ok_of_toOption (by decide +kernel)
  constructor
  · obtain ⟨haccepted, hvalue⟩ := (add_counts_words _ _ hnew _ _ hpage).1 .page (by decide +kernel)
      (by decide)
    have hseven : Paging.Kind.page.Writes (.call "pageNum" [.call "7" [.word "x", .word "y"]]) 7 :=
      ⟨"7", by decide, by decide, by decide⟩
    exact ⟨haccepted.2 ⟨7, hseven⟩, hvalue 7 hseven⟩
  · obtain ⟨haccepted, hterms⟩ := (add_counts_words _ _ hnew _ _ hkey).2 (.call "not" [key])
      (by decide +kernel)
    have hok := haccepted.2 fun k hk => by
      have hkeys : Condition.keyTerms (.call "not" [key]) = [key] := by decide
      obtain rfl := List.mem_singleton.1 (hkeys ▸ hk)
      exact ⟨.call "eq" [.word "orderId", .word "10248"], eq_ok_of_toOption (by decide +kernel)⟩
    exact ⟨hok, (hterms hok).trans (by decide +kernel)⟩

/-- A call is taken for the number, the index and the key that its own word spells. -/
theorem add_accepts_calls :
    (∃ t, Fragment.parse "limit(5(x))" = .ok t ∧ t.children.any Term.isLeaf = false ∧
      ((new Catalog.Sample.orders).add "limit(5(x))").1 = .ok () ∧
      ((new Catalog.Sample.orders).add "limit(5(x))").2.page.limit = some 5) ∧
    ∃ t, Fragment.parse "_key(primaryIndex(x),10248(y))" = .ok t ∧
      t.children.any Term.isLeaf = false ∧
      ((new Catalog.Sample.orders).add "_key(primaryIndex(x),10248(y))").1 = .ok () ∧
      ((new Catalog.Sample.orders).add "_key(primaryIndex(x),10248(y))").2.terms .filter =
        [.call "eq" [.word "orderId", .word "10248"]] := by
  constructor
  · exact ⟨.call "limit" [.call "5" [.word "x"]], eq_ok_of_toOption (by decide +kernel),
      by decide +kernel, eq_ok_of_toOption (by decide +kernel), by decide +kernel⟩
  · exact ⟨.call "_key" [.call "primaryIndex" [.word "x"], .call "10248" [.word "y"]],
      eq_ok_of_toOption (by decide +kernel), by decide +kernel,
      eq_ok_of_toOption (by decide +kernel), by decide +kernel⟩

end Query
end ResourceQuery

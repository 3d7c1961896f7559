import ResourceQuery.Proofs.Query.Contribution
import ResourceQuery.Proofs.Query.Failures
import ResourceQuery.Target

set_option autoImplicit false

/-!
# Query: the rows asked for after a run

Paging terms are of four kinds that set a number, and of each kind the last one
that was accepted counts.  The rows that a query asks for are worked out from
these four numbers alone, whatever else was added in between and whatever was at
fault, and every target is given the same rows.

Numbers are machine words, so it has to be said what happens at their bounds:
`Asks` is stated of natural numbers, and the arithmetic of words is compared
with it once.
-/

namespace ResourceQuery

theorem Number.lt_of_word? {s : String} {n : Nat} (h : word? s = some n) : n < UInt64.size := by
  unfold word? at h
  exact of_decide_eq_true (Option.filter_eq_some_iff.1 h).2

namespace Paging

/-! ## Kinds of paging terms -/

/-- What a paging term can set to a number. -/
inductive Kind where
  | offset
  | limit
  | page
  | pageSize
  deriving DecidableEq, Repr

/-- The words for a kind, in lower case. -/
def Kind.words : Kind → List String
  | offset => ["offset"]
  | limit => ["limit"]
  | page => ["page", "pagenum"]
  | pageSize => ["pagesize"]

/-- The least number that a kind can be set to. -/
def Kind.least : Kind → Nat
  | offset => 0
  | limit => 0
  | page => 1
  | pageSize => 1

/-- The term is of the kind, without regard to case. -/
def Kind.has (kind : Kind) (t : Term) : Bool := kind.words.contains (Text.lower t.token)

/-- The number that the only argument of a term writes. -/
def number? (t : Term) : Option Nat :=
  match t.children with
  | [value] => Number.word? (Text.trim value.token)
  | _ => .none

/-- The number of the last of the terms that are of the kind. -/
def last (kind : Kind) (ts : List Term) : Option Nat := (ts.filter kind.has).getLast?.bind number?

theorem last_append_of_has {kind : Kind} {t : Term} (ts : List Term) (h : kind.has t = true) :
    last kind (ts ++ [t]) = number? t := by
  rw [last, List.filter_append, List.filter_cons_of_pos h, List.filter_nil,
    List.getLast?_append, List.getLast?_singleton]
  rfl

theorem last_append_of_not_has {kind : Kind} {t : Term} (ts : List Term) (h : kind.has t = false) :
    last kind (ts ++ [t]) = last kind ts := by
  rw [last, List.filter_append, List.filter_cons_of_neg (by simp [h]), List.filter_nil,
    List.append_nil, last]

/-- What is set for a kind. -/
def value (p : Paging) : Kind → Option UInt64
  | .offset => p.offset
  | .limit => p.limit
  | .page => p.page
  | .pageSize => p.pageSize

/-- What a setting sets for a kind. -/
def Setting.value? : Setting → Kind → Option UInt64
  | .offset n, .offset => some n
  | .limit n, .limit => some n
  | .page n, .page => some n
  | .pageSize n, .pageSize => some n
  | _, _ => .none

/-- A setting changes the kind it sets, and no other. -/
theorem value_apply (p : Paging) (id : WordId) (set : Setting) (kind : Kind) :
    (p.apply id set).value kind = (set.value? kind).or (p.value kind) := by
  cases set <;> cases kind <;> rfl

theorem number_ok {t : Term} {least : Nat} {n : UInt64} (h : number t least = .ok n) :
    number? t = some n.toNat ∧ least ≤ n.toNat := by
  unfold number at h
  cases hchildren : t.children with
  | nil =>
    rw [hchildren] at h
    cases h
  | cons value others =>
    rw [hchildren] at h
    cases others with
    | cons other others => cases h
    | nil =>
      dsimp only at h
      have hnumber : number? t = Number.word? (Text.trim value.token) := by
        rw [number?, hchildren]
      cases hword : (Number.word? (Text.trim value.token)).filter (least ≤ ·) with
      | none =>
        rw [hword] at h
        cases h
      | some m =>
        rw [hword] at h
        cases h
        obtain ⟨hsome, hleast⟩ := Option.filter_eq_some_iff.1 hword
        rw [hnumber, UInt64.toNat_ofNat_of_lt' (Number.lt_of_word? hsome)]
        exact ⟨hsome, of_decide_eq_true hleast⟩

/-- No word is for two kinds. -/
theorem has_eq_of_mem {own : Kind} {t : Term} (h : Text.lower t.token ∈ own.words) (kind : Kind) :
    kind.has t = decide (kind = own) := by
  have hwords : own.words.all (fun w => kind.words.contains w == decide (kind = own)) = true := by
    cases own <;> cases kind <;> decide
  exact eq_of_beq (List.all_eq_true.1 hwords _ h)

/-- The setting sets the kind of the term to its number, if the term is of the
kind, and else sets nothing for the kind. -/
def Sets (t : Term) (set : Setting) (kind : Kind) : Prop :=
  (kind.has t = false ∧ set.value? kind = .none) ∨
    ∃ n, kind.has t = true ∧ set.value? kind = some n ∧ number? t = some n.toNat ∧
      kind.least ≤ n.toNat

theorem sets_of_number (own : Kind) {t : Term} {set : Setting} {make : UInt64 → Setting}
    (hmake : ∀ n kind, (make n).value? kind = if kind = own then some n else .none)
    (hword : Text.lower t.token ∈ own.words) (h : make <$> number t own.least = .ok set)
    (kind : Kind) : Sets t set kind := by
  obtain ⟨n, hn, rfl⟩ := map_eq_ok_iff.1 h
  rw [Sets, has_eq_of_mem hword, hmake]
  by_cases hkind : kind = own
  · subst hkind
    exact .inr ⟨n, decide_eq_true rfl, if_pos rfl, number_ok hn⟩
  · exact .inl ⟨decide_eq_false hkind, if_neg hkind⟩

/-- A paging term sets its own kind to its number, and no other kind. -/
theorem sets_of_setting {t : Term} {set : Setting} (h : setting t = .ok set) (kind : Kind) :
    Sets t set kind := by
  unfold setting at h
  split at h
  · next hword =>
    exact sets_of_number .offset (fun n kind => by cases kind <;> rfl) (by rw [hword]; decide) h
      kind
  · next hword =>
    exact sets_of_number .limit (fun n kind => by cases kind <;> rfl) (by rw [hword]; decide) h kind
  · next hword =>
    exact sets_of_number .page (fun n kind => by cases kind <;> rfl) (by rw [hword]; decide) h kind
  · next hword =>
    exact sets_of_number .page (fun n kind => by cases kind <;> rfl) (by rw [hword]; decide) h kind
  · next hword =>
    exact sets_of_number .pageSize (fun n kind => by cases kind <;> rfl) (by rw [hword]; decide) h
      kind
  · next hoffset hlimit hpage hpageNum hpageSize =>
    split at h
    · cases h
    · cases h
      refine .inl ⟨?_, by cases kind <;> rfl⟩
      cases kind with
      | offset => simpa [Kind.has, Kind.words] using hoffset
      | limit => simpa [Kind.has, Kind.words] using hlimit
      | page => simpa [Kind.has, Kind.words] using And.intro hpage hpageNum
      | pageSize => simpa [Kind.has, Kind.words] using hpageSize

/-! ## What the terms of a run set -/

/-- For each kind that is set which the last of the terms of that kind says. -/
structure Follows (p : Paging) (ts : List Term) : Prop where
  value_eq : ∀ kind, (p.value kind).map UInt64.toNat = last kind ts
  least_le : ∀ kind n, last kind ts = some n → kind.least ≤ n

variable {p : Paging} {ts : List Term}

theorem follows_none : none.Follows [] where
  value_eq kind := by cases kind <;> rfl
  least_le _ _ h := by cases h

/-- One more term. -/
theorem Follows.apply (h : p.Follows ts) (id : WordId) {t : Term} {set : Setting}
    (hset : setting t = .ok set) : (p.apply id set).Follows (ts ++ [t]) := by
  have hkind : ∀ kind, ((p.apply id set).value kind).map UInt64.toNat = last kind (ts ++ [t]) ∧
      ∀ n, last kind (ts ++ [t]) = some n → kind.least ≤ n := by
    intro kind
    rw [value_apply]
    rcases sets_of_setting hset kind with ⟨hother, hnone⟩ | ⟨n, hown, hsome, hnumber, hleast⟩
    · rw [hnone, Option.none_or, last_append_of_not_has ts hother]
      exact ⟨h.value_eq kind, h.least_le kind⟩
    · rw [hsome, Option.some_or, last_append_of_has ts hown, hnumber]
      exact ⟨rfl, fun m hm => Option.some.inj hm ▸ hleast⟩
  exact ⟨fun kind => (hkind kind).1, fun kind => (hkind kind).2⟩

theorem toNat_boundedProduct (a b : UInt64) :
    (boundedProduct a b).toNat = min (a.toNat * b.toNat) (UInt64.size - 1) := by
  have hlt : min (a.toNat * b.toNat) (UInt64.size - 1) < UInt64.size :=
    Nat.lt_of_le_of_lt (Nat.min_le_right _ _) (by decide)
  exact UInt64.toNat_ofNat_of_lt' hlt

theorem toNat_getD (o : Option UInt64) (n : UInt64) :
    (o.getD n).toNat = (o.map UInt64.toNat).getD n.toNat := by
  cases o <;> rfl

/-- The page before a page is counted without a turn around zero. -/
theorem Follows.toNat_page (h : p.Follows ts) {n : UInt64} (hn : p.page = some n) :
    1 ≤ n.toNat ∧ (n - 1).toNat = n.toNat - 1 := by
  have hlast : last .page ts = some n.toNat := by
    rw [← h.value_eq .page]
    exact congrArg (Option.map UInt64.toNat) hn
  have hle : 1 ≤ n.toNat := h.least_le .page n.toNat hlast
  exact ⟨hle, UInt64.toNat_sub_of_le n 1 hle⟩

theorem toNat_min (a b : UInt64) : (min a b).toNat = min a.toNat b.toNat := by
  have hmin : min a b = if a ≤ b then a else b := rfl
  rw [hmin, Nat.min_def]
  split
  · next hle => rw [if_pos (UInt64.le_iff_toNat_le.1 hle)]
  · next hle => rw [if_neg fun h => hle (UInt64.le_iff_toNat_le.2 h)]

/-- The rows are those that the terms ask for: of each kind the last one counts,
`offset` wins over `page` and `limit` over `pageSize`, and an offset past the
largest word is cut to it. -/
structure Asks (config : Config) (ts : List Term) (w : Window) : Prop where
  limit_eq : w.limit.toNat =
    min (((last .limit ts).or (last .pageSize ts)).getD config.defaultPageSize.toNat)
      config.maxPageSize.toNat
  offset_eq : w.offset.toNat =
    (last .offset ts).getD ((last .page ts).elim 0 fun n =>
      min ((n - 1) * w.limit.toNat) (UInt64.size - 1))

/-- The last term of each kind settles the rows. -/
theorem Asks.eq_of_last {config : Config} {ts' : List Term} {w w' : Window}
    (h : Asks config ts w) (h' : Asks config ts' w')
    (hlast : ∀ kind, last kind ts' = last kind ts) : w' = w := by
  have hlimit : w'.limit = w.limit := by
    rw [← UInt64.toNat_inj, h.limit_eq, h'.limit_eq, hlast, hlast]
  have hoffset : w'.offset = w.offset := by
    rw [← UInt64.toNat_inj, h.offset_eq, h'.offset_eq, hlast, hlast, hlimit]
  cases w
  cases w'
  cases hlimit
  cases hoffset
  rfl

theorem Follows.asks (h : p.Follows ts) (config : Config) : Asks config ts (p.window config) := by
  have hoffset : p.offset.map UInt64.toNat = last .offset ts := h.value_eq .offset
  have hpage : p.page.map UInt64.toNat = last .page ts := h.value_eq .page
  constructor
  · rw [← h.value_eq, ← h.value_eq, ← Option.map_or, ← toNat_getD, ← toNat_min]
    rfl
  · rw [← hoffset, ← hpage]
    cases hset : p.offset with
    | some n =>
      simp only [window, hset]
      rfl
    | none =>
      cases hnumber : p.page with
      | none =>
        simp only [window, hset, hnumber]
        rfl
      | some n =>
        simp only [window, hset, hnumber, toNat_boundedProduct, (h.toNat_page hnumber).2]
        rfl

end Paging

/-! ## Runs -/

namespace Query

variable {c : Collection} {q q' : Query}

/-- One more step of a run, whether it pages or not. -/
theorem follows_step (h : q.page.Follows (q.terms .page)) (hq : q.Sound)
    (hext : q.store.Extends q'.store) (hstep : q.PagesOn q') :
    q'.page.Follows (q'.terms .page) := by
  rcases hstep.page_eq with hsame | ⟨id, set, hset, hsame⟩
  · have hclause : q'.clause .page = q.clause .page ++ [] := by
      rw [List.append_nil]
      exact congrArg Paging.terms hsame
    rw [terms_append hq hext hclause, List.map_nil, List.append_nil, hsame]
    exact h
  · have hclause : q'.clause .page = q.clause .page ++ [id] :=
      (congrArg Paging.terms hsame).trans (Paging.terms_apply q.page id set)
    rw [terms_append hq hext hclause, hsame]
    exact h.apply id hset

/-- Along every run the paging follows the paging terms. -/
theorem Reached.follows (h : Reached c q) : q.page.Follows (q.terms .page) := by
  induction h with
  | new => exact Paging.follows_none
  | @add q hq fragment ih =>
    have hover := Store.Over.refl hq.sound.wellFormed
    exact follows_step ih hq.sound ((claimed_add hover fragment).edited.over hover).extension
      (pagesOn_add q fragment)
  | @addTerm q hq s id hs hid ih =>
    exact follows_step ih hq.sound ((claimed_addTerm hs hid).edited.over hs).extension
      ((pagesOn_addTerm _ id).of_eq rfl rfl)

/-- Adds the terms of the fragments one after the other, past any that are at fault. -/
def addEach (q : Query) (fragments : List String) : Query :=
  fragments.foldl (fun q fragment => (q.add fragment).2) q

theorem Reached.addEach {fragments : List String} : ∀ {q : Query}, Reached c q →
    Reached c (q.addEach fragments) := by
  induction fragments with
  | nil => exact fun h => h
  | cons fragment fragments ih => exact fun h => ih (h.add fragment)

/-! ## Accepted paging terms -/

/-- The term as a paging term, if it is one and not at fault. -/
def asPageTerm? (t : Term) : Option Term :=
  if Clause.owner? t.lifted.token = some .page ∧ t.lifted.isQuoted = false ∧
    (Paging.setting t.lifted).toOption.isSome = true then some t.lifted else none

/-- The paging term that a fragment writes, if it writes one that is not at fault. -/
def pageTerm? (fragment : String) : Option Term :=
  (Fragment.parse fragment).toOption.bind asPageTerm?

/-- The paging terms among those that the fragments write. -/
def pageTerms (fragments : List String) : List Term := fragments.filterMap pageTerm?

theorem page_of_filterShare {t : Term} {ts : Clause → List Term}
    (h : filterShare c t = .ok ts) : ts .page = [] := by
  obtain ⟨_, _, rfl⟩ := map_eq_ok_iff.1 h
  rfl

theorem page_of_groupShare {t : Term} {ts : Clause → List Term}
    (h : groupShare t = .ok ts) : ts .page = [] := by
  obtain ⟨_, _, rfl⟩ := map_eq_ok_iff.1 h
  rfl

/-- A term that goes to another clause gives nothing to the paging. -/
theorem page_of_share {kind : Clause} {t : Term} {ts : Clause → List Term} (hkind : kind ≠ .page)
    (h : share c kind t = .ok ts) : ts .page = [] := by
  cases kind with
  | page => exact absurd rfl hkind
  | filter => exact page_of_filterShare h
  | group => exact page_of_groupShare h
  | order =>
    obtain ⟨_, _, rfl⟩ := map_eq_ok_iff.1 h
    rfl
  | select =>
    obtain ⟨parts, _, h⟩ := bind_eq_ok_iff.1 h
    obtain ⟨handed, hhanded, h⟩ := bind_eq_ok_iff.1 h
    obtain rfl := pure_eq_ok_iff.1 h
    suffices handed .page = [] from this
    unfold handedShare at hhanded
    split at hhanded
    · exact page_of_groupShare hhanded
    · exact page_of_filterShare hhanded
    · cases hhanded
      rfl

/-- A term gives itself to the paging as a paging term, and nothing if it is none. -/
theorem page_of_contribution (c : Collection) (t : Term) :
    (contribution c t).toOption.elim [] (fun ts => ts .page) = (asPageTerm? t).toList := by
  unfold contribution asPageTerm?
  cases Clause.owner? t.lifted.token with
  | none => rfl
  | some kind =>
    cases t.lifted.isQuoted with
    | true => cases kind <;> rfl
    | false =>
      have hclaimed : (some kind).filter (fun _ => !false) = some kind := rfl
      rw [hclaimed]
      dsimp only
      by_cases hkind : kind = .page
      · subst hkind
        rw [share]
        cases Paging.setting t.lifted <;> rfl
      · rw [if_neg fun h => hkind (Option.some.inj h.1)]
        cases hshare : share c kind t.lifted with
        | error fault => rfl
        | ok ts => exact page_of_share hkind hshare

theorem page_of_fragmentContribution (c : Collection) (fragment : String) :
    (fragmentContribution c fragment).toOption.elim [] (fun ts => ts .page) =
      (pageTerm? fragment).toList := by
  unfold fragmentContribution pageTerm?
  cases Fragment.parse fragment with
  | error fault => rfl
  | ok t =>
    rw [ok_bind]
    exact page_of_contribution c t

/-- A fragment that writes a paging term is accepted, whatever was added before. -/
theorem add_of_pageTerm (hq : q.Sound) {fragment : String} {t : Term}
    (h : pageTerm? fragment = some t) : (q.add fragment).1 = .ok () := by
  have hpage := page_of_fragmentContribution q.collection fragment
  rw [(comes_add hq fragment).outcome]
  cases hshare : fragmentContribution q.collection fragment with
  | ok ts => rfl
  | error fault =>
    rw [hshare, h] at hpage
    cases hpage

/-- A fragment puts the paging term that it writes behind those that are there. -/
theorem terms_page_add (hq : q.Sound) (fragment : String) :
    (q.add fragment).2.terms .page = q.terms .page ++ (pageTerm? fragment).toList := by
  rw [← page_of_fragmentContribution q.collection]
  cases hshare : fragmentContribution q.collection fragment with
  | ok ts =>
    obtain ⟨q', hadd, hterms⟩ := terms_add hq hshare
    rw [hadd]
    exact hterms .page
  | error fault =>
    have hself := Store.Over.refl hq.wellFormed
    have hext := ((claimed_add hself fragment).edited.over hself).extension
    have hfault := (comes_add hq fragment).outcome
    rw [hshare] at hfault
    obtain ⟨q', hadd⟩ := exists_of_fst_eq hfault
    rw [hadd] at hext ⊢
    obtain ⟨s, ids, rfl, _⟩ := left_add hq hadd
    have hclause : clause { q with store := s, select := q.select ++ ids } .page =
        q.clause .page ++ [] := (List.append_nil _).symm
    exact terms_append hq hext hclause

theorem terms_page_addEach {fragments : List String} : ∀ {q : Query}, Reached c q →
    (q.addEach fragments).terms .page = q.terms .page ++ pageTerms fragments := by
  induction fragments with
  | nil => exact fun _ => (List.append_nil _).symm
  | cons fragment fragments ih =>
    intro q hq
    have hrest := ih (hq.add fragment)
    rw [terms_page_add hq.sound, List.append_assoc] at hrest
    have hcons : pageTerms (fragment :: fragments) =
        (pageTerm? fragment).toList ++ pageTerms fragments := by
      cases hterm : pageTerm? fragment <;> simp [pageTerms, hterm]
    rw [hcons]
    exact hrest

end Query

/-! ## Targets -/

/-- The rows that a compiled query asks for. -/
def Compiled.window : Compiled → Window
  | sql statement => statement.window
  | document query => query.window
  | keyValue request => request.window

theorem Sql.window_of_compile {catalog : Catalog} {config : Config} {d : Dialect} {r : Request}
    {st : Statement} (h : compile catalog config d r = .ok st) :
    st.window = r.page.window config := by
  obtain ⟨p, hplan, rfl⟩ := map_eq_ok_iff.1 h
  unfold plan at hplan
  split at hplan
  · obtain ⟨_, hthrow, _⟩ := bind_eq_ok_iff.1 hplan
    cases hthrow
  · obtain ⟨_, _, hplan⟩ := bind_eq_ok_iff.1 hplan
    obtain rfl := pure_eq_ok_iff.1 hplan
    rfl

theorem Document.window_of_compile {config : Config} {r : Request} {q : Query}
    (h : compile config r = .ok q) : q.window = r.page.window config := by
  unfold compile at h
  obtain ⟨_, _, h⟩ := bind_eq_ok_iff.1 h
  obtain ⟨_, _, h⟩ := bind_eq_ok_iff.1 h
  obtain rfl := pure_eq_ok_iff.1 h
  rfl

theorem KeyValue.window_of_compile {config : Config} {r : ResourceQuery.Request} {req : Request}
    (h : compile config r = .ok req) : req.window = r.page.window config := by
  unfold compile at h
  obtain ⟨_, _, h⟩ := bind_eq_ok_iff.1 h
  obtain ⟨_, _, h⟩ := bind_eq_ok_iff.1 h
  obtain ⟨_, _, h⟩ := bind_eq_ok_iff.1 h
  obtain ⟨_, _, h⟩ := bind_eq_ok_iff.1 h
  obtain rfl := Except.ok.inj h
  rfl

namespace Target

open Query (addEach pageTerm? pageTerms)

theorem window_of_compile {target : Target} {catalog : Catalog} {config : Config} {q : Query}
    {compiled : Compiled} (h : target.compile catalog config q = .ok compiled) :
    compiled.window = q.page.window config := by
  cases target with
  | sql d =>
    obtain ⟨st, hst, rfl⟩ := map_eq_ok_iff.1 h
    exact Sql.window_of_compile hst
  | document =>
    obtain ⟨query, hquery, rfl⟩ := map_eq_ok_iff.1 h
    exact Document.window_of_compile hquery
  | keyValue =>
    obtain ⟨request, hrequest, rfl⟩ := map_eq_ok_iff.1 h
    exact KeyValue.window_of_compile hrequest

/-- After every run, with whatever faults in it, a query has the paging terms
that its fragments write, and each of these was accepted.  A page number is at
least one, the rows are those that the last term of each kind asks for, in
whatever order terms of different kinds came, and every target is given these
rows. -/
theorem compile_window_of_run (c : Collection) (fragments : List String) (catalog : Catalog)
    (config : Config) :
    (addEach (.new c) fragments).terms .page = pageTerms fragments ∧
    (∀ fragment t, pageTerm? fragment = some t →
      ((addEach (.new c) fragments).add fragment).1 = .ok ()) ∧
    (∀ n, (addEach (.new c) fragments).page.page = some n →
      1 ≤ n.toNat ∧ (n - 1).toNat = n.toNat - 1) ∧
    Paging.Asks config (pageTerms fragments) ((addEach (.new c) fragments).page.window config) ∧
    (∀ fragments', (∀ kind, Paging.last kind (pageTerms fragments') =
        Paging.last kind (pageTerms fragments)) →
      (addEach (.new c) fragments').page.window config =
        (addEach (.new c) fragments).page.window config) ∧
    ∀ (target : Target) (compiled : Compiled),
      target.compile catalog config (addEach (.new c) fragments) = .ok compiled →
      compiled.window = (addEach (.new c) fragments).page.window config := by
  have hreached : ∀ fragments, Query.Reached c (addEach (.new c) fragments) :=
    fun _ => Query.Reached.new.addEach
  have hterms : ∀ fragments, (addEach (.new c) fragments).terms .page = pageTerms fragments :=
    fun _ => Query.terms_page_addEach .new
  have hfollows : ∀ fragments,
      (addEach (.new c) fragments).page.Follows (pageTerms fragments) := by
    intro fragments
    rw [← hterms]
    exact (hreached fragments).follows
  have hasks := fun fragments => (hfollows fragments).asks config
  exact ⟨hterms fragments, fun _ _ => Query.add_of_pageTerm (hreached fragments).sound,
    fun _ => (hfollows fragments).toNat_page, hasks fragments,
    fun fragments' => (hasks fragments).eq_of_last (hasks fragments'),
    fun _ _ => window_of_compile⟩

/-- A run with faults among its paging terms, and with some that are overridden. -/
def pagingRun : List String :=
  ["pageNum=2", "page=0", "limit(", "LIMIT( +7 )", "Page=18446744073709551615"]

/-- Terms of the same kinds in another order, without the faults. -/
def pagingRunShort : List String := ["pagenum=18446744073709551615", "limit=7"]

theorem compile_window_of_pagingRun :
    pageTerms pagingRun = [.call "pageNum" [.word "2"], .call "LIMIT" [.word "+7"],
      .call "Page" [.word "18446744073709551615"]] ∧
    (addEach (.new Query.things) pagingRun).terms .page = pageTerms pagingRun ∧
    ((addEach (.new Query.things) pagingRun).add "offset=0").1 = .ok () ∧
    ((addEach (.new Query.things) pagingRun).page.page = some 18446744073709551615 ∧
      1 ≤ (18446744073709551615 : UInt64).toNat) ∧
    Paging.Asks .standard (pageTerms pagingRun) ⟨18446744073709551615, 7⟩ ∧
    (addEach (.new Query.things) pagingRunShort).page.window .standard =
      (addEach (.new Query.things) pagingRun).page.window .standard ∧
    ∃ compiled, Target.document.compile ⟨[]⟩ .standard (addEach (.new Query.things) pagingRun) =
        .ok compiled ∧ compiled.window = ⟨18446744073709551615, 7⟩ := by
  obtain ⟨hterms, haccepted, hpage, hasks, hshort, htargets⟩ :=
    compile_window_of_run Query.things pagingRun ⟨[]⟩ .standard
  have hwritten : pageTerms pagingRun = [.call "pageNum" [.word "2"], .call "LIMIT" [.word "+7"],
      .call "Page" [.word "18446744073709551615"]] := by
    decide +kernel
  have hwrittenShort : pageTerms pagingRunShort =
      [.call "pagenum" [.word "18446744073709551615"], .call "limit" [.word "7"]] := by
    decide +kernel
  have hstate : (fun q : Query => (q.page.page, q.page.window .standard,
      (Target.document.compile ⟨[]⟩ .standard q).toOption.isSome))
        (addEach (.new Query.things) pagingRun) =
      (some 18446744073709551615, ⟨18446744073709551615, 7⟩, true) := by
    decide +kernel
  simp only [Prod.mk.injEq] at hstate
  obtain ⟨hnumber, hwindow, hsome⟩ := hstate
  have hkinds : ∀ kind, Paging.last kind (pageTerms pagingRunShort) =
      Paging.last kind (pageTerms pagingRun) := by
    intro kind
    rw [hwritten, hwrittenShort]
    cases kind <;> decide
  obtain ⟨compiled, hcompiled⟩ := Option.isSome_iff_exists.1 hsome
  have hcompile := eq_ok_of_toOption hcompiled
  exact ⟨hwritten, hterms, haccepted "offset=0" (.call "offset" [.word "0"]) (by decide +kernel),
    ⟨hnumber, (hpage _ hnumber).1⟩, hwindow ▸ hasks, hshort pagingRunShort hkinds, compiled,
    hcompile, (htargets .document compiled hcompile).trans hwindow⟩

end Target
end ResourceQuery

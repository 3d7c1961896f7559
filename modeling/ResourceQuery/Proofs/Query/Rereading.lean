import ResourceQuery.Proofs.Query.Fitting

set_option autoImplicit false

/-!
# Query: reading the text of a query again

The text of a query joins the texts of the terms that its clauses hold, so it
gives the same query again if all of them fit.  All terms that a query string
brings to a clause do, but for some of the filter: a conjunct that is split off
is not asked for its word, and a component of a key can be any text.

The proof goes along the fragments and says of every term that is brought to a
clause that it fits there (`brought_addAll`).  The filter is the exception, so
there the condition is made explicit: `Settled`.
-/

namespace ResourceQuery

open Fragment (Undivided)
open Store (Loose Over)

theorem Term.quote_of_isWord {t : Term} (h : t.isWord = true) : t.quote = none := by
  rw [isWord, isQuoted, Bool.and_eq_true] at h
  cases hquote : t.quote with
  | none => rfl
  | some q =>
    rw [hquote] at h
    cases h.2

/-- A call of a word whose characters stand for themselves. -/
theorem Fragment.undivided_call (word : String) {args : List Term} (hne : word.toList ≠ [])
    (hsafe : (word.toList.all fun c => c != '\\' && c != '&' && c != '\n') = true)
    (hargs : ∀ a ∈ args, Undivided a) : Undivided (.call word args) :=
  .call (safe_word word hne hsafe).1 (safe_word word hne hsafe).2 hargs

theorem Term.hasToken_call (r r' : Role) (hne : r ≠ r') (ts : List Term) :
    (Term.call r.word ts).hasToken r'.word = false := by
  rw [Bool.eq_false_iff]
  intro hword
  have hrole := hasToken_word_iff.1 hword
  rw [role_call] at hrole
  exact hne (Option.some.inj hrole)

/-! ## Settled filters -/

/-- A term of a filter that is a fragment of its own and goes to the filter: its
word belongs to the filter, it sets no parameter, it has no key, and its words
can be written without `&` outside quotes. -/
structure Settled (t : Term) : Prop where
  undivided : Undivided t
  owned : Clause.owner? t.token = some .filter
  bare : t.quote = none
  noParameter : t.setsParameter = false
  keyless : ∀ u ∈ t.subterms, u.hasToken "_key" = false

theorem Settled.role_ne {t : Term} (h : Settled t) : ∀ u ∈ t.subterms, u.role ≠ some .key := by
  intro u hu hrole
  have hkey : u.hasToken "_key" = true := (Term.hasToken_word_iff (r := .key)).2 hrole
  rw [h.keyless u hu] at hkey
  cases hkey

/-- Widening changes words to `in` only, so what is not divided stays so. -/
theorem undivided_widen {t : Term} (h : Undivided t) : Undivided (Condition.widen t) := by
  induction t using Term.induction with
  | node token quote children ih =>
    have hchildren : ∀ u ∈ children.map Condition.widen, Undivided u := by
      intro u hu
      obtain ⟨child, hchild, rfl⟩ := List.mem_map.1 hu
      exact ih child hchild (h.child hchild)
    cases quote with
    | some q =>
      -- a quoted word has no arguments
      have hleaf : children = [] := by
        cases h.writable with
        | leaf => rfl
      rw [Condition.widen_leaf (by rw [hleaf]; rfl)]
      exact h
    | none =>
      rw [Condition.widen_node]
      split
      · exact Fragment.undivided_call "in" (by decide) (by decide) hchildren
      · exact .call (h.word rfl).1 (h.word rfl).2 hchildren

/-- What is under a widened term was under the term, and is widened itself. -/
theorem mem_subterms_widen {t u : Term} (hu : u ∈ (Condition.widen t).subterms) :
    ∃ v ∈ t.subterms, u = Condition.widen v := by
  induction t using Term.induction with
  | node token quote children ih =>
    rcases Term.mem_subterms.1 hu with rfl | ⟨child, hchild, hu⟩
    · exact ⟨_, Term.mem_subterms_self _, rfl⟩
    · rw [Condition.children_widen] at hchild
      obtain ⟨below, hbelow, rfl⟩ := List.mem_map.1 hchild
      obtain ⟨v, hv, heq⟩ := ih below hbelow hu
      exact ⟨v, Term.mem_subterms_of_child hbelow hv, heq⟩

theorem setsParameter_widen {t : Term} (h : t.setsParameter = false) :
    (Condition.widen t).setsParameter = false := by
  rw [Bool.eq_false_iff] at h ⊢
  refine fun hsets => h ?_
  obtain ⟨token, quote, children⟩ := t
  cases children with
  | nil =>
    rwa [Condition.widen_leaf rfl] at hsets
  | cons key values =>
    rw [Term.setsParameter, Condition.children_widen] at hsets
    simp only [Term.children_node, List.map_cons, Bool.and_eq_true] at hsets
    obtain ⟨⟨⟨heq, hleaf⟩, hbare⟩, hword⟩ := hsets
    have hkey : Condition.widen key = key := by
      refine Condition.widen_leaf ?_
      rw [Term.isLeaf, Condition.children_widen, List.isEmpty_map] at hleaf
      exact hleaf
    rw [hkey] at hleaf hbare hword
    -- a wide equation would not be one afterwards
    have hrole := (Term.hasToken_word_iff (r := .equation)).1 heq
    rw [Condition.role_widen] at hrole
    split at hrole
    · cases hrole
    · have heq' := (Term.hasToken_word_iff (r := .equation)).2 hrole
      simp only [Term.setsParameter, Term.children_node, Bool.and_eq_true]
      exact ⟨⟨⟨heq', hleaf⟩, hbare⟩, hword⟩

/-- A settled term is settled when it is widened, too. -/
theorem Settled.widen {t : Term} (h : Settled t) : Settled (Condition.widen t) := by
  refine ⟨undivided_widen h.undivided, ?_, ?_, setsParameter_widen h.noParameter, fun u hu => ?_⟩
  · obtain ⟨token, quote, children⟩ := t
    rw [Condition.widen_node]
    split
    · exact (show Clause.owner? "in" = some .filter by decide +kernel)
    · exact h.owned
  · obtain ⟨token, quote, children⟩ := t
    rw [Condition.widen_node]
    exact h.bare
  · obtain ⟨v, hv, rfl⟩ := mem_subterms_widen hu
    rw [Bool.eq_false_iff]
    intro hkey
    have hrole := (Term.hasToken_word_iff (r := .key)).1 hkey
    rw [Condition.role_widen] at hrole
    split at hrole
    · cases hrole
    · exact h.role_ne v hv hrole

/-! ## What a selection contributes -/

namespace Selection

theorem undivided_anonymousLeaf : Undivided anonymousLeaf := by
  have hword := Fragment.safe_word anonymous (by decide) (by decide)
  exact .leaf (show Token.Proper anonymous (some .double) from hword.1.1) fun hbare => by cases hbare

/-- A computed column with its alias fits the selection. -/
theorem fits_as {expression label : Term} (hexpression : Undivided expression)
    (hlabel : Undivided label) : Clause.select.Fits (.call "as" [expression, label]) := by
  refine ⟨Fragment.undivided_call "as" (by decide) (by decide) ?_, ?_, rfl, ?_, fun _ => rfl⟩
  · simpa using ⟨hexpression, hlabel⟩
  · exact (show Clause.owner? "as" = some .select by decide +kernel)
  · exact (show Text.lower "as" ∉
      ["count", "sum", "min", "max", "aggregate", "function", "countascol"] by decide +kernel)

theorem undivided_countOf {column value : Term} (hcolumn : Undivided column)
    (hvalue : Undivided value) : Clause.select.Fits (countOf column value) := by
  have hdigit : ∀ digit : String, digit.toList ≠ [] →
      (digit.toList.all fun c => c != '\\' && c != '&' && c != '\n') = true →
      Undivided (.word digit) := fun digit hne hsafe =>
    .leaf (Fragment.safe_word digit hne hsafe).1 fun _ => (Fragment.safe_word digit hne hsafe).2
  refine fits_as (Fragment.undivided_call "sum" (by decide) (by decide) ?_) hvalue
  have hequation : Undivided (.call "eq" [column, value]) :=
    Fragment.undivided_call "eq" (by decide) (by decide) (by simpa using ⟨hcolumn, hvalue⟩)
  have hchoice : Undivided (.call "if" [.call "eq" [column, value], .word "1", .word "0"]) :=
    Fragment.undivided_call "if" (by decide) (by decide) (by
      simpa using ⟨hequation, hdigit "1" (by decide) (by decide), hdigit "0" (by decide) (by decide)⟩)
  simpa using hchoice

variable {t : Term} {terms : List Term} {grouping filter : Option Term}

/-- Whatever a selection term contributes to the selection fits it. -/
theorem Shares.fits (h : Shares t terms grouping filter) (hundivided : Undivided t)
    (howned : Clause.owner? t.token = some .select) (hbare : t.quote = none) :
    ∀ u ∈ terms, Clause.select.Fits u := by
  intro u hu
  cases h with
  | plain hword has =>
    rw [List.mem_singleton.1 hu]
    exact ⟨hundivided, howned, hbare, hword, has⟩
  | labelled =>
    rw [List.mem_singleton.1 hu]
    exact fits_as hundivided undivided_anonymousLeaf
  | @grouped function column label hchildren hfunction =>
    rw [List.mem_singleton.1 hu]
    have hmem : function ∈ t.children ∧ column ∈ t.children := by
      rcases hchildren with ⟨hchildren, _⟩ | hchildren <;> simp [hchildren]
    have hlabel : Undivided label := by
      rcases hchildren with ⟨_, rfl⟩ | hchildren
      · exact undivided_anonymousLeaf
      · exact hundivided.child (by simp [hchildren])
    have hname := (hundivided.child hmem.1).word (Term.quote_of_isWord hfunction)
    refine fits_as (.call hname.1 hname.2 ?_) hlabel
    simpa using hundivided.child hmem.2
  | @counted column value values hchildren =>
    obtain ⟨v, hv, rfl⟩ := List.mem_map.1 hu
    refine undivided_countOf (hundivided.child ?_) (hundivided.child ?_)
    · simp [hchildren]
    · rw [hchildren]
      exact List.mem_cons_of_mem _ hv

/-- A grouping that a selection term contributes is a fragment that goes to the grouping. -/
theorem Shares.grouping_fits {g : Term} (h : Shares t terms (some g) filter)
    (hundivided : Undivided t) (htaken : Clause.group.Takes g) : Clause.group.Fits g := by
  cases h with
  | @grouped function column label hchildren hfunction =>
    have hcolumn : Undivided column := by
      rcases hchildren with ⟨hchildren, _⟩ | hchildren <;>
        exact hundivided.child (by simp [hchildren])
    have howned : Clause.owner? "group" = some .group := by decide +kernel
    exact ⟨Fragment.undivided_call "group" (by decide) (by decide) (by simpa using hcolumn),
      howned, rfl, htaken⟩

/-- A filter that a selection term contributes is settled, if the term has no keys. -/
theorem Shares.filter_settled {f : Term} (h : Shares t terms grouping (some f))
    (hundivided : Undivided t) (hkeyless : ∀ u ∈ t.subterms, u.hasToken "_key" = false) :
    Settled f ∧ f.role ≠ some .all := by
  cases h with
  | @counted column value values hchildren =>
    have howned : Clause.owner? "in" = some .filter := by decide +kernel
    have hnokey : (Term.call "in" (column :: value :: values)).hasToken "_key" = false :=
      Term.hasToken_call .membership .key (by decide) _
    refine ⟨⟨Fragment.undivided_call "in" (by decide) (by decide) fun a ha =>
      hundivided.child (hchildren ▸ ha), howned, rfl, ?_, Term.forall_subterms.2 ⟨hnokey, ?_⟩⟩, ?_⟩
    · have hnoequation : (Term.call "in" (column :: value :: values)).hasToken "eq" = false :=
        Term.hasToken_call .membership .equation (by decide) _
      simp only [Term.setsParameter, Term.call, Term.children_node] at hnoequation ⊢
      rw [hnoequation]
      rfl
    · exact fun child hchild u hu => hkeyless u (Term.mem_subterms_of_child (hchildren ▸ hchild) hu)
    · rw [show (Term.call "in" (column :: value :: values)).role = some .membership from
        Term.role_call .membership _]
      decide

end Selection
/-! ## What a query string brings to the clauses -/

namespace Query

variable {plain : Prop} {s₀ : Store} {q q' q'' : Query} {id : WordId} {kind : Clause}

/-- What can be said of every term that a clause is brought; of the filter more
can be said when what it is brought is plain. -/
def Brought (plain : Prop) : Clause → Term → Prop
  | .filter, t => t.role ≠ some .all ∧
      (∀ u ∈ t.subterms, u.role = some .equation → u.children.length ≤ 2) ∧ (plain → Settled t)
  | kind, t => kind.Fits t

/-- The clauses gain words that read as terms that can be brought to them. -/
def Brings (plain : Prop) (q q' : Query) : Prop :=
  ∃ ids : Clause → List WordId, ∀ kind, q'.clause kind = q.clause kind ++ ids kind ∧
    ∀ x ∈ ids kind, Brought plain kind (q'.store.read x)

theorem mem_only {other : Clause} {ids : List WordId} {x : WordId} (h : x ∈ kind.only ids other) :
    other = kind ∧ x ∈ ids := by
  unfold Clause.only at h
  split at h
  · next heq => exact ⟨heq, h⟩
  · cases h

theorem Brings.one {ids : List WordId}
    (hclause : ∀ other, q'.clause other = q.clause other ++ kind.only ids other)
    (h : ∀ x ∈ ids, Brought plain kind (q'.store.read x)) : Brings plain q q' := by
  refine ⟨kind.only ids, fun other => ⟨hclause other, fun x hx => ?_⟩⟩
  obtain ⟨rfl, hmem⟩ := mem_only hx
  exact h x hmem

/-- One gain after the other, when what the first one gains is read in the end. -/
theorem Brings.append {ids : List WordId} (h : Brings plain q' q'')
    (hclause : ∀ other, q'.clause other = q.clause other ++ kind.only ids other)
    (hids : ∀ x ∈ ids, Brought plain kind (q''.store.read x)) : Brings plain q q'' := by
  obtain ⟨more, hmore⟩ := h
  refine ⟨fun other => kind.only ids other ++ more other, fun other => ⟨?_, fun x hx => ?_⟩⟩
  · rw [(hmore other).1, hclause, List.append_assoc]
  · rcases List.mem_append.1 hx with hx | hx
    · obtain ⟨rfl, hmem⟩ := mem_only hx
      exact hids x hmem
    · exact (hmore other).2 x hx

/-- The filter is brought conjuncts without wide equations.  Words beside them
read as before. -/
theorem brings_filter (h : s₀.Over q.store) (hid : Loose s₀.size q.store id)
    (hplain : plain → Settled (q.store.read id) ∧ (q.store.read id).role ≠ some .all)
    (hclaim : q.claimFilter id = (.ok (), q')) :
    Brings plain q q' ∧
      ∀ x, Loose s₀.size q.store x → x ≠ id → q'.store.read x = q.store.read x := by
  unfold claimFilter at hclaim
  split at hclaim
  · next ids s hfound =>
    obtain ⟨t, hterms, hsame⟩ := (Condition.claim_shows h hid hfound).1
    have hclause : ∀ other, ({ q with store := s, filter := q.filter ++ ids } : Query).clause other =
        q.clause other ++ Clause.filter.only ids other := by
      intro other
      cases other <;> simp [clause, Clause.only]
    cases hclaim
    refine ⟨.one hclause fun x hx => ?_, fun x hx hne =>
      Condition.read_claim_beside h hid hfound hx hne⟩
    have hmem : s.read x ∈ (Condition.widen t).conjuncts := by
      rw [← hterms]
      exact List.mem_map_of_mem hx
    obtain ⟨hsub, hroot⟩ := Term.conjuncts_spec _ _ hmem
    refine ⟨hroot, fun u hu => Condition.widen_equations t u (Term.subterms_trans hsub hu),
      fun hp => ?_⟩
    obtain ⟨hsettled, hall⟩ := hplain hp
    -- a plain filter is its own only conjunct
    obtain rfl := hsame hsettled.role_ne
    have hwide : (Condition.widen (q.store.read id)).role ≠ some .all := by
      rw [Condition.role_widen]
      split
      · decide
      · exact hall
    rw [Term.conjuncts_other hwide] at hmem
    rw [List.mem_singleton.1 hmem]
    exact hsettled.widen
  · cases hclaim

/-- Paging, ordering and grouping are brought terms that they take. -/
theorem brings_listed (kind : Clause) (hkind : kind ≠ .filter) (hkind' : kind ≠ .select)
    (hfits : kind.Takes (q.store.read id) → kind.Fits (q.store.read id))
    (hclaim : q.claim kind id = (.ok (), q')) :
    q'.store = q.store ∧ Brings plain q q' := by
  have hbrought : ∀ {q' : Query}, q'.store = q.store →
      (∀ other, q'.clause other = q.clause other ++ kind.only [id] other) →
      kind.Takes (q.store.read id) → q'.store = q.store ∧ Brings plain q q' := by
    intro q' hstore hclause htakes
    refine ⟨hstore, .one hclause fun x hx => ?_⟩
    rw [List.mem_singleton.1 hx, hstore]
    cases kind with
    | filter => exact absurd rfl hkind
    | page | order | group | select => exact hfits htakes
  cases kind with
  | filter => exact absurd rfl hkind
  | select => exact absurd rfl hkind'
  | page =>
    rw [claim, claimPage] at hclaim
    split at hclaim
    · next setting hsetting =>
      cases hclaim
      refine hbrought rfl (fun other => ?_) ⟨setting, hsetting⟩
      cases other <;> simp [clause, Paging.terms_apply, Clause.only]
    · cases hclaim
  | order =>
    rw [claim, claimOrder] at hclaim
    split at hclaim
    · next hcheck =>
      cases hclaim
      refine hbrought rfl (fun other => ?_) hcheck
      cases other <;> simp [clause, Clause.only]
    · cases hclaim
  | group =>
    rw [claim, claimGroup] at hclaim
    split at hclaim
    · next hcheck =>
      cases hclaim
      refine hbrought rfl (fun other => ?_) hcheck
      cases other <;> simp [clause, Clause.only]
    · cases hclaim

/-- The selection brings its parts to the clauses that they are for. -/
theorem brings_select (h : s₀.Over q.store) (hid : Loose s₀.size q.store id)
    (hundivided : Undivided (q.store.read id))
    (howned : Clause.owner? (q.store.read id).token = some .select)
    (hbare : (q.store.read id).quote = none)
    (hplain : plain → ∀ u ∈ (q.store.read id).subterms, u.hasToken "_key" = false)
    (hclaim : q.claimSelect id = (.ok (), q')) : Brings plain q q' := by
  obtain ⟨hedited, hnodup, hloose⟩ := Selection.contributed_claim h hid
  unfold claimSelect at hclaim
  split at hclaim
  · cases hclaim
  · next found s hfound =>
    have hshares := Selection.shares_claim h hid hfound
    have hfits := hshares.fits hundivided howned hbare
    rw [hfound] at hedited hnodup hloose
    have hnodup := hnodup found rfl
    have hloose := hloose found rfl
    have hover : s₀.Over s := hedited.over h
    rw [Selection.Claim.ids, List.append_assoc] at hnodup hloose
    obtain ⟨_, _, hapart⟩ := List.nodup_append.1 hnodup
    have hselect : ∀ other, ({ q with store := s, select := q.select ++ found.terms } : Query).clause
        other = q.clause other ++ Clause.select.only found.terms other := by
      intro other
      cases other <;> simp [clause, Clause.only]
    have hterms : ∀ x ∈ found.terms, Brought plain .select (s.read x) := fun x hx =>
      hfits _ (List.mem_map_of_mem hx)
    dsimp only at hclaim
    -- a selection brings a grouping, a filter or neither, besides its own terms
    rcases hgrouping : found.grouping with _ | grouping
    · rcases hfilter : found.filter with _ | filter
      · rw [hgrouping, hfilter] at hclaim
        cases hclaim
        exact .one hselect hterms
      · rw [hgrouping, hfilter] at hclaim
        rw [hfilter] at hshares
        have hin : filter ∈ found.grouping.toList ++ found.filter.toList := by simp [hfilter]
        obtain ⟨hbrings, hbeside⟩ := brings_filter
          (q := { q with store := s, select := q.select ++ found.terms }) hover
          (hloose filter (List.mem_append_right _ hin))
          (fun hp => hshares.filter_settled hundivided (hplain hp)) hclaim
        refine hbrings.append hselect fun x hx => ?_
        rw [hbeside x (hloose x (List.mem_append_left _ hx)) (hapart x hx filter hin)]
        exact hterms x hx
    · rw [hgrouping] at hclaim hshares
      obtain ⟨hstore, hbrings⟩ := brings_listed
        (q := { q with store := s, select := q.select ++ found.terms }) .group (by decide)
        (by decide) (hshares.grouping_fits hundivided) hclaim
      refine hbrings.append hselect fun x hx => ?_
      rw [hstore]
      exact hterms x hx

/-- Whatever clause claims a term, it brings terms that can be brought to it. -/
theorem brings_claim (h : s₀.Over q.store) (hid : Loose s₀.size q.store id)
    (hundivided : Undivided (q.store.read id))
    (howned : Clause.owner? (q.store.read id).token = some kind)
    (hbare : (q.store.read id).quote = none)
    (hplain : plain → (∀ u ∈ (q.store.read id).subterms, u.hasToken "_key" = false) ∧
      (kind = .filter → (q.store.read id).setsParameter = false ∧
        (q.store.read id).role ≠ some .all))
    (hclaim : q.claim kind id = (.ok (), q')) : Brings plain q q' := by
  cases kind with
  | filter =>
    refine (brings_filter h hid (fun hp => ?_) hclaim).1
    obtain ⟨hkeyless, hfilter⟩ := hplain hp
    exact ⟨⟨hundivided, howned, hbare, (hfilter rfl).1, hkeyless⟩, (hfilter rfl).2⟩
  | select =>
    unfold claim at hclaim
    exact brings_select h hid hundivided howned hbare (fun hp => (hplain hp).1) hclaim
  | page | order | group =>
    exact (brings_listed _ (by decide) (by decide)
      (fun htaken => ⟨hundivided, howned, hbare, htaken⟩) hclaim).2

theorem undivided_lifted {t : Term} (h : Undivided t) : Undivided t.lifted := by
  unfold Term.lifted
  split
  · next key values hchildren =>
    split
    · next hsets =>
      have hword : key.isWord = true := by
        simp only [Term.setsParameter, hchildren, Bool.and_eq_true] at hsets
        rw [Term.isWord, hsets.1.1.2, hsets.1.2]
        rfl
      have hkey := (h.child (by simp [hchildren])).word (Term.quote_of_isWord hword)
      exact .call hkey.1 hkey.2 fun a ha => h.child (by simp [hchildren, ha])
    · exact h
  · exact h

/-- The term has no keys and is no conjunction. -/
def Plain (t : Term) : Prop :=
  t.hasToken "and" = false ∧ ∀ u ∈ t.subterms, u.hasToken "_key" = false

/-- A plain term is lifted to one without keys; if that goes to the filter, the
term was no parameter. -/
theorem Plain.lifted {t : Term} (h : Plain t) :
    (∀ u ∈ t.lifted.subterms, u.hasToken "_key" = false) ∧
      (Clause.owner? t.lifted.token = some .filter → t.lifted.setsParameter = false ∧
        t.lifted.role ≠ some .all) := by
  have hself : t.setsParameter = false → t.setsParameter = false ∧ t.role ≠ some .all := by
    refine fun hsets => ⟨hsets, fun hrole => ?_⟩
    have hand : t.hasToken "and" = true := (Term.hasToken_word_iff (r := .all)).2 hrole
    rw [h.1] at hand
    cases hand
  unfold Term.lifted
  rcases hchildren : t.children with _ | ⟨key, values⟩
  · exact ⟨h.2, fun _ => hself (by rw [Term.setsParameter, hchildren])⟩
  · dsimp only
    cases hsets : t.setsParameter with
    | false =>
      rw [if_neg (by simp)]
      exact ⟨h.2, fun _ => hself hsets⟩
    | true =>
      rw [if_pos rfl]
      have hbelow : ∀ child ∈ key :: values, ∀ u ∈ child.subterms, u.hasToken "_key" = false :=
        fun child hchild u hu => h.2 u (Term.mem_subterms_of_child (hchildren ▸ hchild) hu)
      simp only [Term.setsParameter, hchildren, Bool.and_eq_true] at hsets
      have hkey := hbelow key List.mem_cons_self key key.mem_subterms_self
      rw [Term.hasToken, hsets.1.2, Bool.true_and] at hkey
      refine ⟨Term.forall_subterms.2 ⟨?_, fun child hchild => ?_⟩, fun howner => ?_⟩
      · rw [Term.hasToken, Term.call, Term.isQuoted]
        exact hkey
      · exact hbelow child (List.mem_cons_of_mem key hchild)
      · have howner : Clause.owner? key.token = some .filter := howner
        have hparameter := hsets.2
        rw [isParameter, howner] at hparameter
        dsimp only at hparameter
        rw [hkey] at hparameter
        cases hparameter

/-- A fragment of a query string brings its terms to the clauses. -/
theorem brings_add (hq : q.Sound) {fragment : String}
    (hwhole : Fragment.Whole none fragment.toList)
    (hplain : plain → ∀ t, Fragment.parse fragment = .ok t → Plain t)
    (h : q.add fragment = (.ok (), q')) :
    q'.Sound ∧ q.store.Extends q'.store ∧ Brings plain q q' := by
  have hself := Over.refl hq.wellFormed
  have hclaimed := claimed_add hself fragment
  rw [h] at hclaimed
  refine ⟨hclaimed.sound hq hself, (hclaimed.edited.over hself).extension, ?_⟩
  unfold add at h
  split at h
  · cases h
  · next id s hparse =>
    have hover : q.store.Over s := by
      have hedited := Store.edited_parse hq.wellFormed (Nat.le_refl _) fragment
      rw [hparse] at hedited
      exact hedited.over hself
    have hid : Loose q.store.size s id := Store.loose_parse (Nat.le_refl _) hparse
    have hread := Store.parse_of_read hparse
    obtain ⟨hlift, hloose⟩ := edited_liftParameter hover hid
    have hundivided := undivided_lifted (Fragment.undivided_of_parse hwhole hread)
    have hplain := fun hp => (hplain hp _ hread).lifted
    rw [← read_liftParameter hover hid] at hundivided hplain
    unfold addTerm at h
    generalize liftParameter s id = lifted at hlift hloose hundivided hplain h
    obtain ⟨root, s'⟩ := lifted
    dsimp only at hlift hloose hundivided hplain h
    split at h
    · next kind howner =>
      obtain ⟨howned, hbare⟩ := Option.filter_eq_some_iff.1 howner
      rw [← s'.token_read] at howned
      obtain ⟨ids, hids⟩ := brings_claim (q := { q with store := s' }) (hlift.over hover) hloose
        hundivided howned (by rw [s'.quote_read]; simpa [Store.isQuoted] using hbare)
        (fun hp => ⟨(hplain hp).1, fun hkind => (hplain hp).2 (hkind ▸ howned)⟩) h
      refine ⟨ids, fun kind => ⟨?_, (hids kind).2⟩⟩
      rw [(hids kind).1]
      cases kind <;> rfl
    · cases h

/-- All terms that the fragments of a query string bring to the clauses. -/
theorem brought_addAll (plain : Prop) (fragments : List String)
    (hwhole : ∀ fragment ∈ fragments, Fragment.Whole none fragment.toList)
    (hplain : plain → ∀ fragment ∈ fragments, ∀ t, Fragment.parse fragment = .ok t → Plain t) :
    ∀ {q q' : Query}, q.Sound → q.addAll fragments = .ok q' →
      ∀ kind, ∀ t ∈ q'.terms kind, t ∈ q.terms kind ∨ Brought plain kind t := by
  induction fragments with
  | nil =>
    intro q q' _ h kind t ht
    cases h
    exact .inl ht
  | cons fragment fragments ih =>
    intro q q' hq h kind t ht
    rw [addAll] at h
    split at h
    · next q₁ hadd =>
      obtain ⟨hq₁, hext, ids, hids⟩ := brings_add hq (hwhole fragment List.mem_cons_self)
        (fun hp => hplain hp fragment List.mem_cons_self) hadd
      have hrest := ih (fun f hf => hwhole f (List.mem_cons_of_mem fragment hf))
        (fun hp f hf => hplain hp f (List.mem_cons_of_mem fragment hf)) hq₁ h kind t ht
      rcases hrest with hmem | hbrought
      · rw [terms_append hq hext (hids kind).1] at hmem
        rcases List.mem_append.1 hmem with hmem | hmem
        · exact .inl hmem
        · obtain ⟨x, hx, rfl⟩ := List.mem_map.1 hmem
          exact .inr ((hids kind).2 x hx)
      · exact .inr hbrought
    · cases h

/-! ## Reading again -/

/-- A settled term fits the filter. -/
theorem fits_of_settled {t : Term} (h : Settled t) (hbrought : Brought plain .filter t) :
    Clause.filter.Fits t :=
  ⟨h.undivided, h.owned, h.bare, h.noParameter, hbrought.1,
    fun u hu => ⟨h.role_ne u hu, hbrought.2.1 u hu⟩⟩

/-- The terms of a query with their clauses, in the order in which they are written. -/
def parts (q : Query) : List (Clause × Term) :=
  Clause.priority.flatMap fun kind => (q.terms kind).map (kind, ·)

/-- The text of a query is that of its parts, joined with `&`. -/
theorem render_eq_parts (q : Query) :
    q.render = "&".intercalate (q.parts.map fun p => p.2.render) := by
  simp only [render, parts, List.map_flatMap, List.map_map]
  rfl

/-- The parts of a clause are its terms, in their order. -/
theorem filter_parts (q : Query) (kind : Clause) :
    (q.parts.filter fun p => p.1 = kind).map Prod.snd = q.terms kind := by
  have hpart : ∀ other, ((q.terms other).map (other, ·)).filter (fun p => p.1 = kind) =
      if other = kind then (q.terms other).map (other, ·) else [] := by
    intro other
    rw [List.filter_map]
    split
    · next heq => simp [heq, Function.comp_def]
    · next hne => simp [hne, Function.comp_def]
  rw [parts, List.filter_flatMap]
  simp only [hpart]
  cases kind <;> simp [Clause.priority, Function.comp_def]

/-- A query string with a settled filter is in normal form when it is written
again: the text of the query is accepted and gives the same terms to each
clause.  The filter is settled if no fragment of the query string has a key or
is a conjunction. -/
theorem ofString_render_of_settled (c : Collection) (text : String) (q : Query)
    (h : ofString c text = .ok q) :
    ((∀ t ∈ q.terms .filter, Settled t) →
      ∃ q', ofString c q.render = .ok q' ∧ (∀ kind, q'.terms kind = q.terms kind) ∧
        q'.render = q.render) ∧
    ((∀ fragment ∈ Fragment.split text, ∀ t, Fragment.parse fragment = .ok t →
        t.hasToken "and" = false ∧ ∀ u ∈ t.subterms, u.hasToken "_key" = false) →
      ∀ t ∈ q.terms .filter, Settled t) := by
  have hwhole : ∀ fragment ∈ Fragment.split text, Fragment.Whole none fragment.toList :=
    fun fragment hfragment => Fragment.whole_of_mem_split hfragment
  have hnone : ∀ kind, ∀ t, t ∉ (new c).terms kind := by
    intro kind t ht
    cases kind <;> cases ht
  refine ⟨fun hsettled => ?_, fun hplain t ht => ?_⟩
  · have hbrought : ∀ kind, ∀ t ∈ q.terms kind, Brought False kind t := fun kind t ht =>
      (brought_addAll False _ hwhole (fun hp => hp.elim) (sound_new c) h kind t ht).resolve_left
        (hnone kind t)
    have hfits : ∀ p ∈ q.parts, p.1.Fits p.2 := by
      intro p hp
      obtain ⟨kind, _, hp⟩ := List.mem_flatMap.1 hp
      obtain ⟨t, ht, rfl⟩ := List.mem_map.1 hp
      cases kind with
      | filter => exact fits_of_settled (hsettled t ht) (hbrought .filter t ht)
      | page | order | group | select => exact hbrought _ t ht
    obtain ⟨q', hadd, hterms⟩ := addAll_render q.parts hfits (sound_new c)
    have hsplit : Fragment.split q.render = q.parts.map fun p => p.2.render := by
      rw [render_eq_parts]
      refine Fragment.split_join fun piece hpiece => ?_
      obtain ⟨p, hp, rfl⟩ := List.mem_map.1 hpiece
      have hwritten : p.2.render.toList = p.2.write := String.toList_ofList
      obtain ⟨hundivided, howned, hbare, _⟩ := hfits p hp
      rw [hwritten]
      exact ⟨hundivided.crosses_write, Term.trimmed_write hbare howned⟩
    have hsame : ∀ kind, q'.terms kind = q.terms kind := by
      intro kind
      rw [hterms, filter_parts]
      cases kind <;> rfl
    refine ⟨q', ?_, hsame, ?_⟩
    · rw [ofString, hsplit]
      exact hadd
    · simp only [render, hsame]
  · have hbrought := brought_addAll True _ hwhole (fun _ => hplain) (sound_new c) h
    rcases hbrought .filter t ht with hmem | hbrought
    · exact absurd hmem (hnone .filter t)
    · exact hbrought.2.2 trivial

/-- A query string in which each clause brings its terms into another form. -/
def desugared : String := "eq(name,a,b)&countascol(name,\"x&y\")&limit=5&sort(-id)&aggregate(sum,id)"

theorem ofString_render_of_desugared : ∃ q q', ofString things desugared = .ok q ∧
    q.render = "in(name,a,b)&in(name,\"x&y\")&limit(5)&sort(-id)&group(id)&" ++
      "as(sum(if(eq(name,\"x&y\"),1,0)),\"x&y\")&as(sum(id),\"$$$ANON\")" ∧
    ofString things q.render = .ok q' ∧ (∀ kind, q'.terms kind = q.terms kind) ∧
    q'.render = q.render := by
  have hread : (ofString things desugared).toOption.map render = some (
      "in(name,a,b)&in(name,\"x&y\")&limit(5)&sort(-id)&group(id)&" ++
        "as(sum(if(eq(name,\"x&y\"),1,0)),\"x&y\")&as(sum(id),\"$$$ANON\")") := by decide +kernel
  have hplain : ((Fragment.split desugared).all fun fragment =>
      (Fragment.parse fragment).toOption.all fun t =>
        !t.hasToken "and" && t.subterms.all fun u => !u.hasToken "_key") = true := by
    decide +kernel
  obtain ⟨q, hq, hrender⟩ := Option.map_eq_some_iff.1 hread
  obtain ⟨hagain, hsettled⟩ := ofString_render_of_settled things desugared q (eq_ok_of_toOption hq)
  obtain ⟨q', hq', hterms, hsame⟩ := hagain (hsettled fun fragment hfragment t ht => by
    have hfragment := List.all_eq_true.1 hplain fragment hfragment
    rw [ht] at hfragment
    simpa [Except.toOption] using hfragment)
  exact ⟨q, q', eq_ok_of_toOption hq, hrender, hq', hterms, hsame⟩

/-- The text of a query need not give the same query: a conjunct that compares a
column named like a parameter is taken for the parameter when it stands
alone. -/
theorem ofString_render_lifts_conjunct : ¬∀ (c : Collection) (text : String) (q : Query),
    ofString c text = .ok q →
      ∃ q', ofString c q.render = .ok q' ∧ ∀ kind, q'.terms kind = q.terms kind := by
  intro h
  have hread : (ofString things "and(eq(limit,5),n(name))").toOption.map
      (fun q => (q.render, q.terms .page)) = some ("eq(limit,5)&n(name)", []) := by decide +kernel
  have hagain : (ofString things "eq(limit,5)&n(name)").toOption.map (·.terms .page) =
      some [.call "limit" [.word "5"]] := by decide +kernel
  obtain ⟨q, hq, hterms⟩ := Option.map_eq_some_iff.1 hread
  obtain ⟨q', hq', hpage⟩ := h things _ q (eq_ok_of_toOption hq)
  simp only [Prod.mk.injEq] at hterms
  rw [hterms.1] at hq'
  rw [hq'] at hagain
  have hsame := (hpage .page).trans hterms.2
  rw [Except.toOption, Option.map_some, hsame] at hagain
  cases hagain

end Query
end ResourceQuery

import Mathlib.Data.List.Perm.Basic
import ResourceQuery.Proofs.Query.Edits

set_option autoImplicit false

/-!
# Query: the store along a run

A run starts with an empty query and adds fragments, or terms that have just
been built in the store, whether they are at fault or not.  Along every run the
store stays well-formed, the edits that the query makes are allowed, and the
terms that the clauses hold are distinct and no arguments of others.

Each step of a run is accounted for by its edits, in order: those of the reader
of the fragment, those that lift a parameter, and those of the clause that
claims the term.  `Claimed` says of a step that all of them are allowed and
spare the words of the query, and that what the clauses gain is new, distinct
and no argument; the claims of all clauses have it, and so every query of a run
is `Sound`.
-/

namespace ResourceQuery

open Store (Edited Loose Over)

/-- The ids for one clause, and none for the others. -/
def Clause.only (kind : Clause) (ids : List WordId) (other : Clause) : List WordId :=
  if other = kind then ids else []

theorem Clause.flatMap_only (kind : Clause) (ids : List WordId) :
    priority.flatMap (kind.only ids) = ids := by
  cases kind <;> simp [priority, only]

theorem Paging.terms_apply (p : Paging) (id : WordId) (setting : Paging.Setting) :
    (p.apply id setting).terms = p.terms ++ [id] := by
  cases setting <;> rfl

namespace Query

/-! ## Edits -/

/-- The edits that lift a parameter. -/
def liftParameterEdits (s : Store) (id : WordId) : List Edit :=
  match s.children id with
  | key :: values =>
    if s.hasToken id "eq" && s.isLeaf key && !s.isQuoted key && isParameter (s.token key) then
      values.map .detach ++ (s.detachAll values).adoptEdits (s.token key) none values
    else []
  | [] => []

/-- The edits of giving a term to the selection: its own, and those of the
filter that it hands on. -/
def claimSelectEdits (q : Query) (id : WordId) : List Edit :=
  Selection.claimEdits q.store id ++
    match Selection.claim q.store id with
    | (.error _, _) => []
    | (.ok claim, s) =>
      match claim.grouping, claim.filter with
      | none, some filter => Condition.claimEdits q.collection s filter
      | _, _ => []

/-- The edits of giving a term to the clause. -/
def claimEdits (q : Query) (kind : Clause) (id : WordId) : List Edit :=
  match kind with
  | .filter => Condition.claimEdits q.collection q.store id
  | .select => q.claimSelectEdits id
  | .page | .order | .group => []

/-- The edits of adding the term at an id of the query's store. -/
def addTermEdits (q : Query) (id : WordId) : List Edit :=
  liftParameterEdits q.store id ++
    let (id, s) := liftParameter q.store id
    match (Clause.owner? (s.token id)).filter fun _ => !s.isQuoted id with
    | some kind => { q with store := s }.claimEdits kind id
    | none => []

/-- The edits of adding the term that a fragment writes. -/
def addEdits (q : Query) (fragment : String) : List Edit :=
  q.store.parseEdits fragment ++
    match q.store.parse fragment with
    | (.error _, _) => []
    | (.ok id, s) => { q with store := s }.addTermEdits id

/-! ## What a claim gains -/

/-- Each clause has the ids in addition, which are loose and distinct. -/
structure Gained (s₀ : Store) (q q' : Query) (ids : Clause → List WordId) : Prop where
  clause_eq : ∀ kind, q'.clause kind = q.clause kind ++ ids kind
  nodup : (Clause.priority.flatMap ids).Nodup
  loose : ∀ x ∈ Clause.priority.flatMap ids, Loose s₀.size q'.store x

variable {s₀ : Store} {q q' q'' : Query} {id : WordId}

theorem Gained.one {kind : Clause} {ids : List WordId}
    (hclause : ∀ other, q'.clause other = q.clause other ++ kind.only ids other)
    (hnodup : ids.Nodup) (hloose : ∀ x ∈ ids, Loose s₀.size q'.store x) :
    Gained s₀ q q' (kind.only ids) := by
  rw [← kind.flatMap_only ids] at hnodup hloose
  exact ⟨hclause, hnodup, hloose⟩

theorem Gained.nothing (hclause : ∀ kind, q'.clause kind = q.clause kind) :
    Gained s₀ q q' fun _ => [] := by
  refine ⟨fun kind => ?_, List.nodup_nil, fun x hx => absurd hx List.not_mem_nil⟩
  rw [hclause, List.append_nil]

/-- One gain after the other, when what the first one gains stays loose and is
not gained again. -/
theorem Gained.append {ids ids' : Clause → List WordId} (h : Gained s₀ q q' ids)
    (h' : Gained s₀ q' q'' ids')
    (hkept : ∀ x ∈ Clause.priority.flatMap ids, Loose s₀.size q''.store x)
    (hapart : ∀ x ∈ Clause.priority.flatMap ids, x ∉ Clause.priority.flatMap ids') :
    Gained s₀ q q'' fun kind => ids kind ++ ids' kind := by
  have hperm := List.flatMap_append_perm Clause.priority ids ids'
  refine ⟨fun kind => ?_, ?_, fun x hx => ?_⟩
  · rw [h'.clause_eq, h.clause_eq, List.append_assoc]
  · refine hperm.nodup_iff.1 (List.nodup_append.2 ⟨h.nodup, h'.nodup, fun x hx y hy => ?_⟩)
    rintro rfl
    exact hapart x hx hy
  · rcases List.mem_append.1 (hperm.mem_iff.2 hx) with hx | hx
    · exact hkept x hx
    · exact h'.loose x hx

/-- A claim makes allowed edits only, and what it gains is loose and distinct. -/
structure Claimed (s₀ : Store) (q : Query) (edits : List Edit) (q' : Query) : Prop where
  edited : Edited s₀.size q.store edits q'.store
  gained : ∃ ids, Gained s₀ q q' ids

theorem Claimed.nothing {edits : List Edit} {s : Store}
    (h : Edited s₀.size q.store edits s) : Claimed s₀ q edits { q with store := s } :=
  ⟨h, _, .nothing fun kind => by cases kind <;> rfl⟩

/-- A claim in a store that has been edited before. -/
theorem Claimed.after {edits edits' : List Edit} {s : Store}
    (h : Edited s₀.size q.store edits s) (h' : Claimed s₀ { q with store := s } edits' q') :
    Claimed s₀ q (edits ++ edits') q' := by
  obtain ⟨hedited, ids, hgained⟩ := h'
  refine ⟨h.append hedited, ids, fun kind => ?_, hgained.nodup, hgained.loose⟩
  rw [hgained.clause_eq]
  cases kind <;> rfl

/-- Paging, ordering and grouping take a term as it is, or do not take it. -/
theorem gained_listed (kind : Clause) (hkind : kind ≠ .filter) (hkind' : kind ≠ .select)
    (hid : Loose s₀.size q.store id) :
    (q.claim kind id).2.store = q.store ∧
      (Gained s₀ q (q.claim kind id).2 (kind.only [id]) ∨
        Gained s₀ q (q.claim kind id).2 fun _ => []) := by
  have hlisted : ∀ {q' : Query}, q'.store = q.store →
      (∀ other, q'.clause other = q.clause other ++ kind.only [id] other) →
      Gained s₀ q q' (kind.only [id]) := by
    intro q' hstore hclause
    refine .one hclause (by simp) fun x hx => ?_
    rw [List.mem_singleton.1 hx, hstore]
    exact hid
  cases kind with
  | filter => exact absurd rfl hkind
  | select => exact absurd rfl hkind'
  | page =>
    rw [claim, claimPage]
    split
    · refine ⟨rfl, .inl (hlisted rfl fun other => ?_)⟩
      cases other <;> simp [clause, Paging.terms_apply, Clause.only]
    · exact ⟨rfl, .inr (.nothing fun _ => rfl)⟩
  | order =>
    rw [claim, claimOrder]
    split
    · refine ⟨rfl, .inl (hlisted rfl fun other => ?_)⟩
      cases other <;> simp [clause, Clause.only]
    · exact ⟨rfl, .inr (.nothing fun _ => rfl)⟩
  | group =>
    rw [claim, claimGroup]
    split
    · refine ⟨rfl, .inl (hlisted rfl fun other => ?_)⟩
      cases other <;> simp [clause, Clause.only]
    · exact ⟨rfl, .inr (.nothing fun _ => rfl)⟩

/-- The filter gains loose words, and keeps other words loose.  Of the words
that it gains only the root of the term was loose before. -/
theorem gained_filter (h : s₀.Over q.store) (hid : Loose s₀.size q.store id) :
    Edited s₀.size q.store (Condition.claimEdits q.collection q.store id) (q.claimFilter id).2.store ∧
      q.store.Loosens (q.claimFilter id).2.store ∧
      ∃ ids, Gained s₀ q (q.claimFilter id).2 (Clause.filter.only ids) ∧
        ∀ x ∈ ids, x.index < q.store.size → q.store.parent x = none → x = id := by
  obtain ⟨hedited, hloosens, hids⟩ := Condition.edited_claim (c := q.collection) h hid
  unfold claimFilter
  generalize Condition.claim q.collection q.store id = result at hedited hloosens hids ⊢
  obtain ⟨outcome, s⟩ := result
  cases outcome with
  | error fault =>
    refine ⟨hedited, hloosens, [], ?_, fun x hx => absurd hx List.not_mem_nil⟩
    refine .one (fun other => ?_) List.nodup_nil fun x hx => absurd hx List.not_mem_nil
    cases other <;> simp [clause, Clause.only]
  | ok ids =>
    obtain ⟨hnodup, hloose, hwere⟩ := hids ids rfl
    refine ⟨hedited, hloosens, ids, .one (fun other => ?_) hnodup hloose, hwere⟩
    cases other <;> simp [clause, Clause.only]

theorem claimed_select (h : s₀.Over q.store) (hid : Loose s₀.size q.store id) :
    Claimed s₀ q (q.claimSelectEdits id) (q.claimSelect id).2 := by
  obtain ⟨hedited, hnodup, hloose⟩ := Selection.contributed_claim h hid
  unfold claimSelect claimSelectEdits
  generalize Selection.claim q.store id = result at hedited hnodup hloose ⊢
  obtain ⟨outcome, s⟩ := result
  cases outcome with
  | error fault => exact .nothing (hedited.append (.nil s))
  | ok found =>
    have hnodup := hnodup found rfl
    have hloose := hloose found rfl
    have hover : s₀.Over s := hedited.over h
    rw [Selection.Claim.ids, List.append_assoc] at hnodup hloose
    obtain ⟨hterms, _, hapart⟩ := List.nodup_append.1 hnodup
    have hselect : Gained s₀ q { q with store := s, select := q.select ++ found.terms }
        (Clause.select.only found.terms) := by
      refine .one (fun other => ?_) hterms fun x hx => hloose x (List.mem_append_left _ hx)
      cases other <;> simp [clause, Clause.only]
    have hkept := hselect.loose
    have hmem := Clause.select.flatMap_only found.terms
    dsimp only
    rcases hgrouping : found.grouping with _ | grouping
    · rcases hfilter : found.filter with _ | filter
      · exact ⟨hedited.append (.nil s), _, hselect⟩
      · have hin : filter ∈ found.grouping.toList ++ found.filter.toList := by simp [hfilter]
        obtain ⟨hedited', hloosens, ids, hgained, hwere⟩ :=
          gained_filter (q := { q with store := s, select := q.select ++ found.terms }) hover
            (hloose filter (List.mem_append_right _ hin))
        refine ⟨hedited.append hedited', _, hselect.append hgained
          (fun x hx => (hkept x hx).mono hloosens) fun x hx hx' => ?_⟩
        -- a loose word that the filter gains is its own root, which the selection does not keep
        rw [Clause.flatMap_only] at hx'
        obtain rfl := hwere x hx' (hkept x hx).lt (hkept x hx).root
        exact hapart x (hmem ▸ hx) x hin rfl
    · have hin : grouping ∈ found.grouping.toList ++ found.filter.toList := by simp [hgrouping]
      obtain ⟨hstore, hgained⟩ := gained_listed
        (q := { q with store := s, select := q.select ++ found.terms }) .group (by decide)
        (by decide) (hloose grouping (List.mem_append_right _ hin))
      have hkept' : ∀ x ∈ Clause.priority.flatMap (Clause.select.only found.terms),
          Loose s₀.size (claimGroup { q with store := s, select := q.select ++ found.terms }
            grouping).2.store x := by
        intro x hx
        have hx := hkept x hx
        rwa [← hstore] at hx
      refine ⟨?_, ?_⟩
      · rw [List.append_nil]
        exact hstore ▸ hedited
      · rcases hgained with hgained | hgained
        · refine ⟨_, hselect.append hgained hkept' fun x hx hx' => ?_⟩
          rw [Clause.flatMap_only, List.mem_singleton] at hx'
          subst hx'
          exact hapart x (hmem ▸ hx) x hin rfl
        · exact ⟨_, hselect.append hgained hkept' fun x _ => List.not_mem_nil⟩

/-- A claim of any clause. -/
theorem claimed_claim (h : s₀.Over q.store) (kind : Clause) (hid : Loose s₀.size q.store id) :
    Claimed s₀ q (q.claimEdits kind id) (q.claim kind id).2 := by
  have hlisted : kind ≠ .filter → kind ≠ .select → Claimed s₀ q [] (q.claim kind id).2 := by
    intro hkind hkind'
    obtain ⟨hstore, hgained⟩ := gained_listed kind hkind hkind' hid
    refine ⟨by rw [hstore]; exact .nil _, ?_⟩
    rcases hgained with hgained | hgained
    · exact ⟨_, hgained⟩
    · exact ⟨_, hgained⟩
  cases kind with
  | filter =>
    obtain ⟨hedited, _, _, hgained, _⟩ := gained_filter h hid
    exact ⟨hedited, _, hgained⟩
  | select =>
    unfold claim claimEdits
    exact claimed_select h hid
  | page | order | group => exact hlisted (by decide) (by decide)

/-- A parameter is lifted by allowed edits, and is loose. -/
theorem edited_liftParameter {s : Store} (h : s₀.Over s) (hid : Loose s₀.size s id) :
    Edited s₀.size s (liftParameterEdits s id) (liftParameter s id).2 ∧
      Loose s₀.size (liftParameter s id).2 (liftParameter s id).1 := by
  have hnodup := h.wellFormed.nodup id
  have hwithin := h.children_within hid
  rcases hchildren : s.children id with _ | ⟨key, values⟩ <;>
    simp only [liftParameter, liftParameterEdits, hchildren]
  · exact ⟨.nil s, hid⟩
  · split
    · rw [hchildren] at hnodup hwithin
      obtain ⟨hdetach, hover, hvalues, _⟩ := Store.edited_detached h fun x hx =>
        hwithin x (List.mem_cons_of_mem key hx)
      obtain ⟨hcall, hlifted, _⟩ := Store.edited_call hover (s.token key) values
        (List.nodup_cons.1 hnodup).2 hvalues
      exact ⟨hdetach.append hcall, hlifted⟩
    · exact ⟨.nil s, hid⟩

/-- A term that is new and no argument of another is added by allowed edits. -/
theorem claimed_addTerm (h : s₀.Over q.store) (hid : Loose s₀.size q.store id) :
    Claimed s₀ q (q.addTermEdits id) (q.addTerm id).2 := by
  obtain ⟨hlift, hlifted⟩ := edited_liftParameter h hid
  unfold addTerm addTermEdits
  generalize liftParameter q.store id = lifted at hlift hlifted ⊢
  obtain ⟨root, s⟩ := lifted
  dsimp only at hlift hlifted ⊢
  cases (Clause.owner? (s.token root)).filter fun _ => !s.isQuoted root with
  | some kind => exact .after hlift (claimed_claim (hlift.over h) kind hlifted)
  | none => exact .after hlift (.nothing (.nil s))

/-- A fragment is added by allowed edits, whether it is at fault or not. -/
theorem claimed_add (h : s₀.Over q.store) (fragment : String) :
    Claimed s₀ q (q.addEdits fragment) (q.add fragment).2 := by
  have hparse := Store.edited_parse h.wellFormed h.extension.size_le fragment
  unfold add addEdits
  rcases hread : q.store.parse fragment with ⟨fault | root, s⟩
  · rw [hread] at hparse
    exact .after hparse (.nothing (.nil s))
  · rw [hread] at hparse
    exact .after hparse (claimed_addTerm (hparse.over h) (Store.loose_parse h.extension.size_le hread))

/-! ## Runs -/

/-- The terms that the clauses hold. -/
def held (q : Query) : List WordId := Clause.priority.flatMap q.clause

/-- The store is well-formed, and the terms that the clauses hold are distinct
words of it that are no arguments. -/
structure Sound (q : Query) : Prop where
  wellFormed : q.store.WellFormed
  loose : ∀ x ∈ q.held, Loose 0 q.store x
  nodup : q.held.Nodup

theorem sound_new (c : Collection) : (new c).Sound :=
  ⟨.empty, fun _ hx => absurd hx List.not_mem_nil, List.nodup_nil⟩

/-- What is gained beside a sound query is sound: the words that it holds are
left alone, and the gained ones are new. -/
theorem Claimed.sound (hq : q.Sound) {s : Store} {edits : List Edit} (hs : q.store.Over s)
    (h : Claimed q.store { q with store := s } edits q') : q'.Sound := by
  obtain ⟨ids, hgained⟩ := h.gained
  have hover : q.store.Over q'.store := h.edited.over hs
  have hclause : q'.held = Clause.priority.flatMap fun kind => q.clause kind ++ ids kind := by
    have hkind : q'.clause = fun kind => q.clause kind ++ ids kind := by
      funext kind
      rw [hgained.clause_eq]
      cases kind <;> rfl
    rw [held, hkind]
  have hperm : (q.held ++ Clause.priority.flatMap ids).Perm q'.held := by
    rw [hclause]
    exact List.flatMap_append_perm Clause.priority q.clause ids
  refine ⟨hover.wellFormed, fun x hx => ?_, ?_⟩
  · rcases List.mem_append.1 (hperm.mem_iff.2 hx) with hx | hx
    · exact (hq.loose x hx).mono hover.extension.loosens
    · obtain ⟨_, hlt, hroot⟩ := hgained.loose x hx
      exact ⟨Nat.zero_le _, hlt, hroot⟩
  · refine hperm.nodup_iff.1 (List.nodup_append.2 ⟨hq.nodup, hgained.nodup, fun x hx y hy => ?_⟩)
    rintro rfl
    exact absurd (hgained.loose x hy).le (Nat.not_le_of_lt (hq.loose x hx).lt)

/-- The queries of all runs.  A step adds a fragment, or a term that has been
built in the store beside the words of the query and is no argument there; it
may be at fault. -/
inductive Reached (c : Collection) : Query → Prop where
  | new : Reached c (new c)
  | add {q : Query} (h : Reached c q) (fragment : String) : Reached c (q.add fragment).2
  | addTerm {q : Query} (h : Reached c q) {s : Store} {id : WordId} (hs : q.store.Over s)
      (hid : Loose q.store.size s id) : Reached c ({ q with store := s }.addTerm id).2

/-- Along a run every query is sound. -/
theorem Reached.sound {c : Collection} (h : Reached c q) : q.Sound := by
  induction h with
  | new => exact sound_new c
  | add _ fragment ih =>
    have hs := Over.refl ih.wellFormed
    exact (claimed_add hs fragment).sound ih hs
  | addTerm _ hs hid ih => exact (claimed_addTerm hs hid).sound ih hs

theorem plant_eq (q : Query) (t : Term) :
    q.plant t = { q with store := (q.store.plant t).2 }.addTerm (q.store.plant t).1 := rfl

theorem Reached.over_plant {c : Collection} (h : Reached c q) (t : Term) :
    q.store.Over (q.store.plant t).2 :=
  ⟨h.sound.wellFormed, Store.extends_plant q.store t, .plant t h.sound.wellFormed⟩

/-- Adding a term that is not yet in the store is a step. -/
theorem Reached.plant {c : Collection} (h : Reached c q) (t : Term) :
    Reached c (q.plant t).2 := by
  rw [plant_eq]
  exact h.addTerm (h.over_plant t) (Store.loose_plant (Nat.le_refl _) t)

/-- Admissible operations keep a store well-formed.  The edits of the reader of
fragments are allowed, one by one, and lead to the store that it leaves, with
the term of the fragment at the root; the last of them puts the key in front of
the arguments where a call stands behind a key.  And along every run of a query
its store is well-formed, the terms that its clauses hold are distinct and no
arguments, and adding a fragment or a new term, at fault or not, comes about by
allowed edits alone, those of the reader first. -/
theorem store_in_order_along_runs :
    (∀ (s : Store) (operations : List Operation), s.WellFormed →
      Operation.AllAdmissible s operations → (Operation.applyAll s operations).WellFormed) ∧
    (∀ (s : Store) (fragment : String), s.WellFormed →
      Edit.AllAllowed s (s.parseEdits fragment) ∧
      Edit.applyAll s (s.parseEdits fragment) = (s.parse fragment).2 ∧
      (s.parse fragment).2.read <$> (s.parse fragment).1 = Fragment.parse fragment ∧
      ∀ (tokens : List Token) (key : String) (quote : Option Quote) (name : String)
        (args : List Fragment.Derivation), Token.tokenize fragment = .ok tokens →
        tokens.map Token.kind = (Fragment.Sentence.keyed key quote [.call name args]).tokens →
        ∃ edits call word, (s.parse fragment).1 = .ok call ∧
          s.parseEdits fragment = edits ++ [.insert call 0 word]) ∧
    ∀ (c : Collection) (q : Query), Reached c q →
      q.store.WellFormed ∧
      (∀ id ∈ q.held, id.index < q.store.size ∧ q.store.parent id = none) ∧ q.held.Nodup ∧
      (∀ fragment, Edit.AllAllowed q.store (q.addEdits fragment) ∧
        Edit.applyAll q.store (q.addEdits fragment) = (q.add fragment).2.store) ∧
      ∀ (s : Store) (id : WordId), q.store.Over s → Loose q.store.size s id →
        Edit.AllAllowed s ({ q with store := s }.addTermEdits id) ∧
          Edit.applyAll s ({ q with store := s }.addTermEdits id) =
            ({ q with store := s }.addTerm id).2.store := by
  refine ⟨fun s operations hs h => h.wellFormed hs, fun s fragment hs => ?_, fun c q h => ?_⟩
  · have hedited := Store.edited_parse hs (Nat.zero_le _) fragment
    exact ⟨hedited.allAllowed, hedited.applyAll_eq, s.map_read_parse fragment,
      fun tokens key quote name args htokens hkinds => s.parseEdits_keyed_call htokens hkinds⟩
  have hsound := h.sound
  refine ⟨hsound.wellFormed, fun id hid => ?_, hsound.nodup, fun fragment => ?_,
    fun s id hs hid => ?_⟩
  · obtain ⟨_, hlt, hroot⟩ := hsound.loose id hid
    exact ⟨hlt, hroot⟩
  · have hedited := (claimed_add (.refl hsound.wellFormed) fragment).edited
    exact ⟨hedited.allAllowed, hedited.applyAll_eq⟩
  · have hedited := (claimed_addTerm (q := { q with store := s }) hs hid).edited
    exact ⟨hedited.allAllowed, hedited.applyAll_eq⟩

/-- Operations that let a word give way to one of another term, and put it elsewhere. -/
def shuffled : List Operation :=
  [.leaf "a" none, .call "f" [⟨0⟩], .leaf "b" (some .double), .replace ⟨0⟩ ⟨2⟩,
    .insertChild ⟨1⟩ 1 ⟨0⟩, .parse "g(x,", .duplicate ⟨1⟩]

/-- A query with counts, after a paging term at fault. -/
def busyThings : Query :=
  ((new things).add "limit=all").2.plant
    (.call "countascol" [.word "name", .word "a", .word "b"]) |>.2

theorem store_in_order_along_busy_run :
    (Operation.applyAll .empty shuffled).WellFormed ∧ busyThings.store.WellFormed ∧
      (∀ id ∈ busyThings.held, id.index < busyThings.store.size ∧
        busyThings.store.parent id = none) ∧
      busyThings.held.Nodup ∧
      busyThings.held = [⟨26⟩, ⟨16⟩, ⟨25⟩] ∧
      busyThings.store.parseEdits "name=sw(a)" =
        [.leaf "name" none, .leaf "a" none, .leaf "sw" none, .insert ⟨29⟩ 0 ⟨28⟩,
          .insert ⟨29⟩ 0 ⟨27⟩] ∧
      Edit.AllAllowed busyThings.store (busyThings.store.parseEdits "name=sw(a)") ∧
      Edit.replace ⟨29⟩ ⟨37⟩ ∈ busyThings.addEdits "not(_key(byId,y~2))" ∧
      Edit.AllAllowed busyThings.store (busyThings.addEdits "not(_key(byId,y~2))") := by
  have hshuffled : Operation.AllAdmissible .empty shuffled := by
    refine ⟨trivial, ⟨by decide, by decide⟩, trivial, ⟨by decide, fun p hp => ?_⟩,
      ⟨by decide, by decide, by decide, by decide, by decide⟩, trivial, trivial, trivial⟩
    obtain rfl : (⟨1⟩ : WordId) = p := Option.some.inj hp
    decide
  have hreached : Reached things busyThings := by
    unfold busyThings
    exact .plant (.add .new _) _
  obtain ⟨hoperations, hparse, hruns⟩ := store_in_order_along_runs
  obtain ⟨hstore, hheld, hnodup, hadd, _⟩ := hruns things busyThings hreached
  exact ⟨hoperations .empty shuffled .empty hshuffled, hstore, hheld, hnodup,
    by decide +kernel, by decide +kernel, (hparse busyThings.store _ hstore).1,
    by decide +kernel, (hadd _).1⟩

end Query
end ResourceQuery

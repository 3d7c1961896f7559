import ResourceQuery.Proofs.FilterText.Phrases
import ResourceQuery.Proofs.Sql.Scoping
import ResourceQuery.Proofs.Target.Matching

set_option autoImplicit false

/-!
# SQL: the conditions of joins

A join compares its table by one equation for each pair of its keys.  A
relationship without keys is refused, whatever else the query asks for; those of
a link table are not looked at, so a link table without keys is joined to its
target under no condition.

To say what a request lacks if keys are all that it lacks, it is compared with
the same request in a catalog where every relationship has keys.  The runs in
both catalogs go side by side: they join the same tables, until one of them
meets a relationship without keys.  Which joins there are is read off the hops
of the plan.
-/

namespace ResourceQuery

/-! ## Catalogs with keys -/

/-- The relationship, with one pair of columns for its keys if it has none. -/
def Relationship.keyed (spare : ColumnPair) (r : Relationship) : Relationship :=
  { r with keys := if r.keys = [] then [spare] else r.keys }

/-- The collection, with keys for all of its relationships. -/
def Collection.keyed (spare : ColumnPair) (c : Collection) : Collection :=
  { c with relationships := c.relationships.map (Relationship.keyed spare) }

/-- The catalog, with keys for all relationships. -/
def Catalog.keyed (spare : ColumnPair) (c : Catalog) : Catalog :=
  ⟨c.collections.map (Collection.keyed spare)⟩

/-- The request, with keys for the relationships of its collection. -/
def Request.keyed (spare : ColumnPair) (r : Request) : Request :=
  { r with collection := r.collection.keyed spare }

/-- The step in the catalog with keys. -/
def Step.keyed (spare : ColumnPair) (s : Step) : Step :=
  ⟨s.route, s.relationship.keyed spare, s.target.keyed spare⟩

section Keyed

variable (spare : ColumnPair)

theorem Relationship.keys_keyed_ne (r : Relationship) : (r.keyed spare).keys ≠ [] := by
  rw [keyed]
  split
  · exact List.cons_ne_nil _ _
  · next hkeys => exact hkeys

theorem Collection.relationship?_keyed (c : Collection) (name : String) :
    (c.keyed spare).relationship? name = (c.relationship? name).map (Relationship.keyed spare) := by
  rw [relationship?, keyed, List.find?_map]
  rfl

theorem Catalog.collection_keyed {catalog : Catalog} {name : String} {found : Collection}
    (h : (catalog.keyed spare).collection name = .ok found) :
    ∃ c, catalog.collection name = .ok c ∧ found = c.keyed spare := by
  have hfind : (catalog.keyed spare).collection? name =
      (catalog.collection? name).map (Collection.keyed spare) := by
    rw [collection?, keyed, List.find?_map]
    rfl
  rw [collection, hfind] at h
  rw [collection]
  cases hname : catalog.collection? name with
  | none =>
    rw [hname] at h
    cases h
  | some c =>
    rw [hname] at h
    exact ⟨c, rfl, (Except.ok.inj h).symm⟩

/-- With keys, walks lead the same way. -/
theorem ColumnPath.walk_keyed {catalog : Catalog} {names : List String} :
    ∀ {current final : Collection} {walked : List String} {steps : List Step},
      walk (catalog.keyed spare) (current.keyed spare) walked names = .ok (steps, final) →
      ∃ steps₀ final₀, walk catalog current walked names = .ok (steps₀, final₀) ∧
        steps = steps₀.map (Step.keyed spare) ∧ final = final₀.keyed spare := by
  induction names with
  | nil =>
    intro current final walked steps h
    obtain ⟨rfl, rfl⟩ := walk_nil_ok_iff.1 h
    exact ⟨[], current, walk_nil_ok_iff.2 ⟨rfl, rfl⟩, rfl, rfl⟩
  | cons name names ih =>
    intro current final walked steps h
    obtain ⟨relationship, target, rest, hname, htarget, hwalk, rfl⟩ := walk_cons_ok_iff.1 h
    rw [Collection.relationship?_keyed] at hname
    obtain ⟨relationship₀, hname₀, rfl⟩ := Option.map_eq_some_iff.1 hname
    obtain ⟨target₀, htarget₀, rfl⟩ := Catalog.collection_keyed spare htarget
    obtain ⟨rest₀, final₀, hwalk₀, rfl, rfl⟩ := ih hwalk
    refine ⟨_, final₀, walk_cons_ok_iff.2 ⟨relationship₀, target₀, rest₀, hname₀, htarget₀, hwalk₀,
      rfl⟩, rfl, rfl⟩

/-- With keys, paths lead the same way. -/
theorem ColumnPath.follow_keyed {catalog : Catalog} {root : Collection} {limit : Nat}
    {path : String} {resolved : Resolved}
    (h : follow (catalog.keyed spare) (root.keyed spare) limit path = .ok resolved) :
    ∃ resolved₀, follow catalog root limit path = .ok resolved₀ ∧
      resolved.steps = resolved₀.steps.map (Step.keyed spare) ∧
      resolved.property = resolved₀.property := by
  unfold follow at h ⊢
  dsimp only at h ⊢
  split at h
  · cases h
  · next hlast =>
    split at h
    · cases h
    · next hlimit =>
      obtain ⟨⟨steps, final⟩, hwalk, h⟩ := bind_eq_ok_iff.1 h
      obtain ⟨property, hproperty, h⟩ := bind_eq_ok_iff.1 h
      obtain rfl := pure_eq_ok_iff.1 h
      obtain ⟨steps₀, final₀, hwalk₀, rfl, rfl⟩ := walk_keyed spare hwalk
      refine ⟨⟨steps₀, property⟩, ?_, rfl, rfl⟩
      rw [if_neg hlast, if_neg hlimit]
      exact bind_eq_ok_iff.2 ⟨_, hwalk₀, bind_eq_ok_iff.2 ⟨property, hproperty, rfl⟩⟩

end Keyed

namespace Sql

open FilterText (textAll_append textAll_cons textAll_singleton textAll_join)

/-! ## Relationships without keys -/

/-- The relationship of the step has no keys. -/
def noKeys (step : Step) : Fault :=
  step.target.misconfigured ("relationship '" ++ step.relationship.name ++ "' has no join keys")

/-- The fault is that of a relationship without keys on the way of a path. -/
def Keyless (catalog : Catalog) (root : Collection) (limit : Nat) (fault : Fault) : Prop :=
  ∃ path step, OnTheWay catalog root limit path step ∧ step.relationship.keys = [] ∧
    fault = noKeys step

/-- The routes lead to the same tables, and equally many tables are joined. -/
structure Scope.Parallel (s s' : Scope) : Prop where
  routes_eq : s.routes = s'.routes
  length_eq : s.joins.length = s'.joins.length

section Matching

variable {spare : ColumnPair} {catalog : Catalog} {root : Collection} {limit : Nat}

theorem Hop.length_joins_keyed (step : Step) (source first : Nat) :
    (⟨step.keyed spare, source, first⟩ : Hop).joins.length =
      (⟨step, source, first⟩ : Hop).joins.length := by
  obtain ⟨route, ⟨name, cardinality, related, keys, through⟩, target⟩ := step
  cases through with
  | none => rfl
  | some link => rfl

namespace Scope.Parallel

variable {s s' t' : Scope} {source index : Nat}

theorem joinStep (h : s.Parallel s') (spare : ColumnPair) (step : Step) (source : Nat) :
    (s.joinStep step source).1 = (s'.joinStep (step.keyed spare) source).1 ∧
      (s.joinStep step source).2.Parallel (s'.joinStep (step.keyed spare) source).2 := by
  rw [joinStep_eq, joinStep_eq, h.length_eq]
  refine ⟨rfl, ?_, ?_⟩
  · rw [h.routes_eq]
    rfl
  · rw [List.length_append, List.length_append, Hop.length_joins_keyed, h.length_eq]

theorem reach (h : s.Parallel s') {step : Step}
    (hreach : s'.reach (step.keyed spare) source = .ok (index, t')) :
    (∃ t, s.reach step source = .ok (index, t) ∧ t.Parallel t') ∨
      step.relationship.keys = [] ∧ s.reach step source = .error (noKeys step) := by
  have htable : s.table? step.route = s'.table? (step.keyed spare).route := by
    rw [Scope.table?, Scope.table?, h.routes_eq]
    rfl
  have hkeyed : (step.keyed spare).relationship.keys ≠ [] :=
    Relationship.keys_keyed_ne spare step.relationship
  unfold Scope.reach at hreach ⊢
  rw [htable]
  cases hknown : s'.table? (step.keyed spare).route with
  | some known =>
    rw [hknown] at hreach
    cases hreach
    exact .inl ⟨s, rfl, h⟩
  | none =>
    rw [hknown] at hreach
    dsimp only at hreach ⊢
    rw [if_neg hkeyed] at hreach
    by_cases hkeys : step.relationship.keys = []
    · exact .inr ⟨hkeys, by rw [if_pos hkeys]; rfl⟩
    · obtain ⟨hindex, hscope⟩ := h.joinStep spare step source
      rw [Except.ok.inj hreach] at hindex hscope
      rw [if_neg hkeys]
      refine .inl ⟨(s.joinStep step source).2, ?_, hscope⟩
      exact congrArg Except.ok (Prod.ext hindex rfl)

theorem reachAll {steps : List Step} : ∀ {s s' t' : Scope} {source index : Nat}, s.Parallel s' →
    s'.reachAll source (steps.map (Step.keyed spare)) = .ok (index, t') →
    (∃ t, s.reachAll source steps = .ok (index, t) ∧ t.Parallel t') ∨
      ∃ step ∈ steps, step.relationship.keys = [] ∧
        s.reachAll source steps = .error (noKeys step) := by
  induction steps with
  | nil =>
    intro s s' t' source index h hreach
    cases hreach
    exact .inl ⟨s, rfl, h⟩
  | cons step steps ih =>
    intro s s' t' source index h hreach
    obtain ⟨⟨middle, s₁'⟩, hstep, hrest⟩ := bind_eq_ok_iff.1 hreach
    rw [Scope.reachAll]
    rcases h.reach hstep with ⟨s₁, hstep₀, h₁⟩ | ⟨hkeys, hfault⟩
    · rw [hstep₀, ok_bind]
      rcases ih h₁ hrest with hok | ⟨lacking, hmem, hkeys, hfault⟩
      · exact .inl hok
      · exact .inr ⟨lacking, List.mem_cons_of_mem step hmem, hkeys, hfault⟩
    · refine .inr ⟨step, List.mem_cons_self, hkeys, ?_⟩
      rw [hfault]
      rfl

end Scope.Parallel

/-- Columns are resolved to the same tables, or a relationship lacks its keys. -/
theorem matches_resolve (path : String) :
    Build.Matches (Keyless catalog root limit) Scope.Parallel Eq (resolve catalog root limit path)
      (resolve (catalog.keyed spare) (root.keyed spare) limit path) := by
  unfold resolve
  refine .bind (S := fun resolved₀ resolved =>
    ColumnPath.follow catalog root limit path = .ok resolved₀ ∧
      resolved.steps = resolved₀.steps.map (Step.keyed spare) ∧
      resolved.property = resolved₀.property) (.lookup fun resolved h => ?_) ?_
  · obtain ⟨resolved₀, hfollow, hsteps, hproperty⟩ := ColumnPath.follow_keyed spare h
    exact ⟨resolved₀, hfollow, hfollow, hsteps, hproperty⟩
  · rintro resolved₀ resolved ⟨hfollow, hsteps, hproperty⟩
    refine .bind .get fun p p' hp => ?_
    refine .bind (S := fun found found' => found.1 = found'.1 ∧ found.2.Parallel found'.2)
      (.attempt ?_) ?_
    · rintro ⟨table, scope⟩ hreach
      rw [hsteps] at hreach
      rcases hp.scopes.reachAll hreach with ⟨scope₀, hok, hparallel⟩ | ⟨step, hmem, hkeys, hfault⟩
      · exact .inl ⟨_, hok, rfl, hparallel⟩
      · exact .inr ⟨_, ⟨path, step, ⟨resolved₀, hfollow, hmem⟩, hkeys, rfl⟩, hfault⟩
    · rintro ⟨table, scope₀⟩ ⟨_, scope⟩ ⟨rfl, hparallel⟩
      refine .bind (.set ⟨hp.values_eq, hparallel⟩) fun _ _ _ => .pure ?_
      rw [hproperty]

/-- In all that they compile, the two catalogs match, or keys are lacking. -/
theorem matching_keyed : Dialog.Matching (Keyless catalog root limit) Scope.Parallel
    (dialog catalog root limit) (dialog (catalog.keyed spare) (root.keyed spare) limit) where
  deciding := rfl
  refused := rfl
  unlike := rfl
  outside := rfl
  resolve := matches_resolve
  test op column path text :=
    .bind (.value path (.text (Pattern.like op text))) fun k k' hk => .pure (by rw [hk])
  blankness _ _ _ := .pure rfl

/-- A request that has a plan in the catalog with keys has one, or a
relationship lacks its keys. -/
theorem plan_of_keyed {config : Config} {r : Request} {p : Plan}
    (h : plan (catalog.keyed spare) config (r.keyed spare) = .ok p) :
    (∃ p₀, plan catalog config r = .ok p₀) ∨
      ∃ fault, Keyless catalog r.collection config.maxRelationshipDepth.toNat fault ∧
        plan catalog config r = .error fault := by
  unfold plan at h ⊢
  have hafter : (r.keyed spare).after = r.after := rfl
  rw [hafter] at h
  split at h
  · cases h
  · next hnone =>
    rw [if_neg hnone]
    obtain ⟨⟨found, f⟩, hrun, _⟩ := bind_eq_ok_iff.1 h
    have hstart : Progress.Beside Scope.Parallel ⟨[], .start⟩ ⟨[], .start⟩ := ⟨rfl, rfl, rfl⟩
    have hsame : List.Forall₂ Term.Recased r.filters r.filters :=
      List.forall₂_same.2 fun t _ => .refl t
    rcases matches_parts matching_keyed r hsame hstart hrun with
      ⟨_, q, hok, _, _⟩ | ⟨fault, hfault, herr⟩
    · refine .inl ⟨_, bind_eq_ok_iff.2 ⟨_, hok, rfl⟩⟩
    · refine .inr ⟨fault, hfault, ?_⟩
      change (parts _ r ⟨[], .start⟩ >>= _) = _
      rw [herr]
      rfl

end Matching

/-! ## The text of a join -/

/-- The condition of a join: one equation for each pair of keys. -/
def onText (d : Dialect) (j : Join) : String :=
  " AND ".intercalate (j.keys.map fun k =>
    "t" ++ toString j.source ++ "." ++ d.quote k.home ++ " = t" ++ toString j.index ++ "." ++
      d.quote k.foreign)

/-- A join in a statement. -/
def joinText (d : Dialect) (j : Join) : String :=
  "\nLEFT JOIN " ++ d.quote j.table ++ " t" ++ toString j.index ++ " ON " ++ onText d j

section Texts

variable (d : Dialect) (style : MarkerStyle)

theorem text_keyPieces (source index : Nat) (k : ColumnPair) :
    Piece.textAll (d.spelling style) (keyPieces source index k) =
      "t" ++ toString source ++ "." ++ d.quote k.home ++ " = t" ++ toString index ++ "." ++
        d.quote k.foreign := by
  have hpieces : keyPieces source index k = [.table source, .fixed ".", .name k.home, .fixed " = ",
      .table index, .fixed ".", .name k.foreign] := rfl
  have htexts : Piece.textAll (d.spelling style) [.table source, .fixed ".", .name k.home,
      .fixed " = ", .table index, .fixed ".", .name k.foreign] =
      ("t" ++ toString source) ++ ("." ++ (d.quote k.home ++ (" = " ++ (("t" ++ toString index) ++
        ("." ++ d.quote k.foreign))))) := by
    rw [textAll_cons, textAll_cons, textAll_cons, textAll_cons, textAll_cons, textAll_cons,
      textAll_singleton]
    rfl
  have hequals : " = t" = " = " ++ "t" := rfl
  rw [hpieces, htexts, hequals]
  simp only [String.append_assoc]

theorem text_join (j : Join) :
    Piece.textAll (d.spelling style) j.pieces = joinText d j := by
  have hkeys : (j.keys.map (keyPieces j.source j.index)).map (Piece.textAll (d.spelling style)) =
      j.keys.map fun k => "t" ++ toString j.source ++ "." ++ d.quote k.home ++ " = t" ++
        toString j.index ++ "." ++ d.quote k.foreign := by
    simp only [List.map_map, Function.comp_def, text_keyPieces]
  have hlead : Piece.textAll (d.spelling style) [.fixed "\nLEFT JOIN ", .name j.table, .fixed " ",
      .table j.index, .fixed " ON "] =
      "\nLEFT JOIN " ++ (d.quote j.table ++ (" " ++ (("t" ++ toString j.index) ++ " ON "))) := by
    rw [textAll_cons, textAll_cons, textAll_cons, textAll_cons, textAll_singleton]
    rfl
  have htable : " t" = " " ++ "t" := rfl
  delta joinText onText
  rw [Join.pieces, textAll_append, textAll_join, hkeys, hlead, htable]
  simp only [String.append_assoc]

/-- The joins are written one after the other, each on a line of its own. -/
theorem text_joins (js : List Join) :
    Piece.textAll (d.spelling style) (js.flatMap Join.pieces) = String.join (js.map (joinText d)) := by
  induction js with
  | nil => rfl
  | cons j js ih =>
    rw [List.flatMap_cons, textAll_append, text_join, ih, List.map_cons, String.join_cons]

/-- A join has a condition exactly if it has keys. -/
theorem onText_eq_empty_iff (j : Join) : onText d j = "" ↔ j.keys = [] := by
  unfold onText
  constructor
  · intro h
    cases hkeys : j.keys with
    | nil => rfl
    | cons k ks =>
      -- the first equation starts with the name of a table
      rw [hkeys, List.map_cons] at h
      cases ks with
      | nil => simp [String.append_eq_empty_iff] at h
      | cons k' ks => simp [String.append_eq_empty_iff, String.intercalate_cons_cons] at h
  · intro h
    rw [h]
    rfl

/-- The statement up to its joins. -/
def Plan.opening (p : Plan) : List Piece :=
  .fixed (if p.distinct then "SELECT DISTINCT " else "SELECT ") :: itemPieces d p.items ++
    [.fixed "\nFROM ", .name p.table, .fixed " ", .table 0]

/-- The conditions and the groups of a statement. -/
def Plan.conditions (p : Plan) : List Piece :=
  Piece.clause "\nWHERE " " AND " (Predicate.piecesAll (phrasing d) p.filters) ++
    Piece.clause "\nGROUP BY " ", " (p.groups.map Column.pieces)

/-- The joins stand between the columns and the conditions of the statement. -/
theorem text_core (p : Plan) : Piece.textAll (d.spelling style) (p.core d) =
    Piece.textAll (d.spelling style) (p.opening d) ++ String.join (p.joins.map (joinText d)) ++
      Piece.textAll (d.spelling style) (p.conditions d) := by
  have hcore : p.core d = p.opening d ++ p.joins.flatMap Join.pieces ++ p.conditions d := by
    simp only [Plan.core, Plan.opening, Plan.conditions, List.append_assoc, List.cons_append]
  rw [hcore, textAll_append, textAll_append, text_joins]

end Texts

/-! ## Statements -/

/-- All joins of a hop have keys exactly if its relationship and its link table have. -/
theorem Hop.forall_keys_ne_iff (h : Hop) :
    (∀ j ∈ h.joins, j.keys ≠ []) ↔ h.step.relationship.keys ≠ [] ∧
      ∀ link, h.step.relationship.through = some link → link.keys ≠ [] := by
  unfold joins
  cases h.step.relationship.through with
  | none => simp
  | some link => simp

theorem Chain.exists_hop {hops : List Hop} {start final : Nat} {steps : List Step}
    (h : Chain hops start steps final) : ∀ step ∈ steps, ∃ hop ∈ hops, hop.step = step := by
  induction h with
  | stay table => exact fun _ hstep => absurd hstep List.not_mem_nil
  | @hop hop steps final hmem _ ih =>
    intro step hstep
    rcases List.mem_cons.1 hstep with rfl | hstep
    · exact ⟨hop, hmem, rfl⟩
    · exact ih step hstep

/-- The joins of a plan are those of hops with keys.  The steps of the hops are
those on the way of the references of the request, no more and no fewer. -/
theorem Plan.Course.exists_hops {catalog : Catalog} {limit : Nat} {r : Request} {p : Plan}
    {plain : List (String × Column × Property)} {es : List (Computed × Expression Column)}
    {p₁ p₂ p₃ p₄ f : Progress Scope}
    (h : p.Course (dialog catalog r.collection limit) r plain es p₁ p₂ p₃ p₄ f) :
    ∃ hops : List Hop, p.joins = hops.flatMap Hop.joins ∧
      (∀ hop ∈ hops, hop.step.relationship.keys ≠ []) ∧
      (∀ hop ∈ hops, ∃ path ∈ references r, OnTheWay catalog r.collection limit path hop.step) ∧
      ∀ path ∈ references r, ∀ step, OnTheWay catalog r.collection limit path step →
        ∃ hop ∈ hops, hop.step = step := by
  obtain ⟨hops, hjoined, hneeded, hall⟩ := h.joined
  refine ⟨hops, h.joins.trans hjoined.joins, hjoined.keyed, hneeded, ?_⟩
  rintro path hpath step ⟨resolved, hfollow, hstep⟩
  obtain ⟨place, hplace, rfl⟩ := List.getElem_of_mem hpath
  obtain ⟨resolved', hfollow', _, hchain⟩ := hall.get hplace (hall.length_eq ▸ hplace)
  obtain rfl := Except.ok.inj (hfollow.symm.trans hfollow')
  exact hchain.exists_hop step hstep

/-- In a compiled statement each join has one equation for each pair of its
keys.  The joins are those of the steps on the way of the references, with the
keys that the catalog gives to the relationship and its link table; every join
has a condition exactly if every link table on the way has keys.  A request that
traverses a relationship without keys is refused: with the fault of such a
relationship, if keys are all that it lacks. -/
theorem compile_join_conditions (catalog : Catalog) (config : Config) (d : Dialect) (r : Request) :
    (∀ st, compile catalog config d r = .ok st →
      ∃ (p : Plan) (hops : List Hop), plan catalog config r = .ok p ∧
        st.sql = Piece.textAll (d.spelling config.markerStyle) (p.opening d) ++
          String.join (p.joins.map (joinText d)) ++
          Piece.textAll (d.spelling config.markerStyle)
            (p.conditions d ++ p.ordering d ++ p.page d) ∧
        (∀ count, st.countSql = some count →
          count = "SELECT COUNT(*) FROM (" ++
            (Piece.textAll (d.spelling config.markerStyle) (p.opening d) ++
              String.join (p.joins.map (joinText d)) ++
              Piece.textAll (d.spelling config.markerStyle) (p.conditions d)) ++ ") rc") ∧
        p.joins = hops.flatMap Hop.joins ∧
        (∀ hop ∈ hops, ∃ path ∈ references r,
          OnTheWay catalog r.collection config.maxRelationshipDepth.toNat path hop.step) ∧
        (∀ path ∈ references r, ∀ step,
          OnTheWay catalog r.collection config.maxRelationshipDepth.toNat path step →
            ∃ hop ∈ hops, hop.step = step) ∧
        (∀ hop ∈ hops, hop.step.relationship.keys ≠ []) ∧
        ((∀ j ∈ p.joins, onText d j ≠ "") ↔
          ∀ path ∈ references r, ∀ step,
            OnTheWay catalog r.collection config.maxRelationshipDepth.toNat path step →
              ∀ link, step.relationship.through = some link → link.keys ≠ [])) ∧
    ∀ path ∈ references r, ∀ step,
      OnTheWay catalog r.collection config.maxRelationshipDepth.toNat path step →
      step.relationship.keys = [] →
        (∀ st, compile catalog config d r ≠ .ok st) ∧
        ∀ spare st, compile (catalog.keyed spare) config d (r.keyed spare) = .ok st →
          ∃ (way : String) (lacking : Step),
            OnTheWay catalog r.collection config.maxRelationshipDepth.toNat way lacking ∧
            lacking.relationship.keys = [] ∧
            compile catalog config d r = .error (.catalog (.misconfigured lacking.target.name
              ("relationship '" ++ lacking.relationship.name ++ "' has no join keys"))) := by
  have hnever : ∀ path ∈ references r, ∀ step,
      OnTheWay catalog r.collection config.maxRelationshipDepth.toNat path step →
      step.relationship.keys = [] → ∀ p, plan catalog config r ≠ .ok p := by
    intro path hpath step hway hkeys p hplan
    obtain ⟨_, _, _, _, _, _, _, hcourse⟩ := plan_course hplan
    obtain ⟨hops, _, hkeyed, _, htraversed⟩ := hcourse.exists_hops
    obtain ⟨hop, hhop, rfl⟩ := htraversed path hpath step hway
    exact hkeyed hop hhop hkeys
  constructor
  · intro st h
    obtain ⟨p, hplan, rfl⟩ := map_eq_ok_iff.1 h
    obtain ⟨_, _, _, _, _, _, _, hcourse⟩ := plan_course hplan
    obtain ⟨hops, hjoins, hkeyed, hneeded, htraversed⟩ := hcourse.exists_hops
    refine ⟨p, hops, hplan, ?_, ?_, hjoins, hneeded, htraversed, hkeyed, ?_⟩
    · rw [Plan.statement, Plan.pieces]
      simp only [textAll_append, text_core, String.append_assoc]
    · intro count hcount
      rw [Plan.statement] at hcount
      dsimp only at hcount
      split at hcount
      · obtain rfl := Option.some.inj hcount
        rw [Plan.countPieces, textAll_append, textAll_cons, text_core, textAll_singleton]
        rfl
      · cases hcount
    · have hempty : ∀ j : Join, onText d j ≠ "" ↔ j.keys ≠ [] :=
        fun j => not_congr (onText_eq_empty_iff d j)
      simp only [hempty, hjoins, List.forall_mem_flatMap, Hop.forall_keys_ne_iff]
      constructor
      · intro hall path hpath step hway
        obtain ⟨hop, hhop, rfl⟩ := htraversed path hpath step hway
        exact (hall hop hhop).2
      · intro hall hop hhop
        obtain ⟨path, hpath, hway⟩ := hneeded hop hhop
        exact ⟨hkeyed hop hhop, hall path hpath hop.step hway⟩
  · intro path hpath step hway hkeys
    refine ⟨fun st h => ?_, fun spare st h => ?_⟩
    · obtain ⟨p, hplan, _⟩ := map_eq_ok_iff.1 h
      exact hnever path hpath step hway hkeys p hplan
    · obtain ⟨p, hplan, _⟩ := map_eq_ok_iff.1 h
      rcases plan_of_keyed hplan with ⟨p₀, hplan₀⟩ | ⟨fault, ⟨way, lacking, hon, hlacking, rfl⟩, herr⟩
      · exact absurd hplan₀ (hnever path hpath step hway hkeys p₀)
      · refine ⟨way, lacking, hon, hlacking, ?_⟩
        rw [compile, herr]
        rfl

/-- The authors of books. -/
def authors : Collection := ⟨"authors", none, [⟨"name", none, .string, false⟩], [], []⟩

/-- Books, with an author by no keys, and with tags by way of a table that has none. -/
def books : Collection where
  name := "books"
  table := none
  properties := [⟨"title", none, .string, false⟩]
  indexes := []
  relationships := [⟨"author", .manyToOne, "authors", [], none⟩,
    ⟨"tags", .manyToMany, "tags", [⟨"id", "book_id"⟩], some ⟨"book_tags", []⟩⟩]

/-- Books, their authors and their tags. -/
def looseLibrary : Catalog :=
  ⟨[books, authors, ⟨"tags", none, [⟨"label", none, .string, false⟩], [], []⟩]⟩

/-- The books with a value at the end of a path. -/
def booksBy (path value : String) : Request where
  collection := books
  filters := [.call "eq" [.word path, .word value]]
  page := .none
  after := none
  sorts := []
  groups := []
  includes := []
  computed := []
  distinct := false
  rowCount := false

theorem compile_join_conditions_of_authors :
    (∃ st, compile (looseLibrary.keyed ⟨"author_id", "id"⟩) .standard .postgres
      ((booksBy "author.name" "Austen").keyed ⟨"author_id", "id"⟩) = .ok st) ∧
    ∃ (way : String) (lacking : Step),
      OnTheWay looseLibrary books Config.standard.maxRelationshipDepth.toNat way lacking ∧
      lacking.relationship.keys = [] ∧
      compile looseLibrary .standard .postgres (booksBy "author.name" "Austen") =
        .error (.catalog (.misconfigured lacking.target.name
          ("relationship '" ++ lacking.relationship.name ++ "' has no join keys"))) := by
  have hkeyed : (compile (looseLibrary.keyed ⟨"author_id", "id"⟩) .standard .postgres
      ((booksBy "author.name" "Austen").keyed ⟨"author_id", "id"⟩)).toOption.isSome = true := by
    decide +kernel
  obtain ⟨st, hst⟩ := Option.isSome_iff_exists.1 hkeyed
  have hpath : "author.name" ∈ references (booksBy "author.name" "Austen") := by decide +kernel
  have hfollow : ColumnPath.follow looseLibrary (booksBy "author.name" "Austen").collection
      Config.standard.maxRelationshipDepth.toNat "author.name" =
      .ok ⟨[⟨"author", ⟨"author", .manyToOne, "authors", [], none⟩, authors⟩],
        ⟨"name", none, .string, false⟩⟩ :=
    eq_ok_of_toOption (by decide +kernel)
  refine ⟨⟨st, eq_ok_of_toOption hst⟩, ?_⟩
  have hrefused := (compile_join_conditions looseLibrary .standard .postgres
    (booksBy "author.name" "Austen")).2 "author.name" hpath
      ⟨"author", ⟨"author", .manyToOne, "authors", [], none⟩, authors⟩
      ⟨_, hfollow, List.mem_cons_self⟩ rfl
  exact hrefused.2 ⟨"author_id", "id"⟩ st (eq_ok_of_toOption hst)

/-- The table behind a link table without keys is joined under no condition. -/
theorem compile_join_of_loose_link : ∃ st,
    compile looseLibrary .standard .postgres (booksBy "tags.label" "lean") = .ok st ∧
    st.sql = "SELECT DISTINCT t0.*\nFROM \"books\" t0\n" ++
      "LEFT JOIN \"book_tags\" t1 ON t0.\"id\" = t1.\"book_id\"\n" ++
      "LEFT JOIN \"tags\" t2 ON \nWHERE t2.\"label\" = ?\nLIMIT 100" := by
  have hsql : (compile looseLibrary .standard .postgres (booksBy "tags.label" "lean")).toOption.map
      Statement.sql = some ("SELECT DISTINCT t0.*\nFROM \"books\" t0\n" ++
        "LEFT JOIN \"book_tags\" t1 ON t0.\"id\" = t1.\"book_id\"\n" ++
        "LEFT JOIN \"tags\" t2 ON \nWHERE t2.\"label\" = ?\nLIMIT 100") := by
    decide +kernel
  obtain ⟨st, hst, htext⟩ := Option.map_eq_some_iff.1 hsql
  exact ⟨st, eq_ok_of_toOption hst, htext⟩

end Sql
end ResourceQuery

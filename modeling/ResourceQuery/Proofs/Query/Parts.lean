import ResourceQuery.Proofs.Query.Invariant
import ResourceQuery.Proofs.Term.Reading

set_option autoImplicit false

/-!
# Query: the parts of a term

What a term becomes before a clause takes it, and what a term of the selection
contributes, said on terms: a parameter is lifted, an aggregate is named,
`aggregate` becomes a computed column and a grouping, and `countascol` a count
for each value and a filter.

The functions of the store are compared with the functions of terms, part by
part: the words that come out read as the terms that are expected, and words
beside them read as before.
-/

namespace ResourceQuery

open Store (Edited Loose Over)

/-! ## Parameters -/

/-- The term is `eq(word,…)` with a word that makes it a term of its own. -/
def Term.setsParameter (t : Term) : Bool :=
  match t.children with
  | key :: _ => t.hasToken "eq" && key.isLeaf && !key.isQuoted && Query.isParameter key.token
  | [] => false

/-- The term with a parameter lifted. -/
def Term.lifted (t : Term) : Term :=
  match t.children with
  | key :: values => if t.setsParameter then .call key.token values else t
  | [] => t

namespace Query

variable {s₀ s : Store} {id : WordId}

/-- Whether a parameter is lifted can be told from the term. -/
theorem setsParameter_read (hs : s.WellFormed) (hid : id.index < s.size) {key : WordId}
    {values : List WordId} (hchildren : s.children id = key :: values) :
    (s.read id).setsParameter =
      (s.hasToken id "eq" && s.isLeaf key && !s.isQuoted key && isParameter (s.token key)) := by
  have hkey : key.index < s.size := hs.child_lt (p := id) (by rw [hchildren]; exact List.mem_cons_self)
  rw [Term.setsParameter, hs.children_read hid, hchildren, List.map_cons]
  dsimp only
  rw [s.hasToken_read, hs.isLeaf_read hkey, s.isQuoted_read, s.token_read]

/-- A term that sets no parameter is left alone. -/
theorem liftParameter_eq_self (hs : s.WellFormed) (hid : id.index < s.size)
    (h : (s.read id).setsParameter = false) : liftParameter s id = (id, s) := by
  rcases hchildren : s.children id with _ | ⟨key, values⟩ <;> simp only [liftParameter, hchildren]
  rw [setsParameter_read hs hid hchildren] at h
  rw [h]
  rfl

/-- Lifting gives the lifted term. -/
theorem read_liftParameter (h : s₀.Over s) (hid : Loose s₀.size s id) :
    (liftParameter s id).2.read (liftParameter s id).1 = (s.read id).lifted := by
  have hs := h.wellFormed
  have hover := (edited_liftParameter h hid).1.over h
  have hchildren_read := hs.children_read hid.lt
  unfold Term.lifted
  rcases hchildren : s.children id with _ | ⟨key, values⟩ <;>
    rw [hchildren] at hchildren_read <;> rw [hchildren_read]
  · simp only [liftParameter, hchildren, List.map_nil]
  · rw [List.map_cons]
    dsimp only
    cases hsets : (s.read id).setsParameter with
    | false => rw [liftParameter_eq_self hs hid.lt hsets, if_neg (by simp)]
    | true =>
      have hlift : liftParameter s id = (s.detachAll values).call (s.token key) values := by
        rw [setsParameter_read hs hid.lt hchildren] at hsets
        simp only [liftParameter, hchildren, hsets, if_true]
      have hvalues : ∀ x ∈ values, x ∈ s.children id := fun x hx => by
        rw [hchildren]
        exact List.mem_cons_of_mem key hx
      have hlt : ∀ x ∈ values, x.index < (s.detachAll values).size := fun x hx =>
        Nat.lt_of_lt_of_le (hs.child_lt (hvalues x hx)) (Store.loosens_detachAll values s).size_le
      have hdetached : (s.detachAll values).WellFormed := by
        have hedited := Store.edited_detachAll (n := s₀.size)
          (fun x hx => h.le_child hid.le (hvalues x hx)) s
        exact (hedited.over h).wellFormed
      rw [hlift] at hover ⊢
      rw [(Store.read_call hdetached (s.token key) values hlt hover.wellFormed).1, if_pos rfl,
        s.token_read]
      refine congrArg (Term.call (s.token key)) (List.map_congr_left fun x hx => ?_)
      exact Store.read_detachAll hs hid.lt hvalues x (hvalues x hx)

end Query

/-! ## Selections -/

namespace Selection

variable {s₀ s s' : Store} {id : WordId}

/-- What a selection term contributes: terms of the selection, a grouping, and a filter. -/
inductive Shares (t : Term) : List Term → Option Term → Option Term → Prop where
  | plain (hword : Text.lower t.token ∉
        ["count", "sum", "min", "max", "aggregate", "function", "countascol"])
      (has : Text.lower t.token = "as" → t.children.length = 2) : Shares t [t] none none
  | labelled (hword : Text.lower t.token ∈ ["count", "sum", "min", "max"]) :
      Shares t [.call "as" [t, anonymousLeaf]] none none
  | grouped {function column label : Term}
      (hchildren : t.children = [function, column] ∧ label = anonymousLeaf ∨
        t.children = [function, column, label])
      (hfunction : function.isWord = true) :
      Shares t [.call "as" [.call function.token [column], label]]
        (some (.call "group" [column])) none
  | counted {column value : Term} {values : List Term}
      (hchildren : t.children = column :: value :: values) :
      Shares t ((value :: values).map (countOf column)) none
        (some (.call "in" (column :: value :: values)))

/-- The parts of a selection term: terms of the selection, a grouping, and a filter. -/
structure Parts where
  terms : List Term
  grouping : Option Term
  filter : Option Term

/-- The terms at the words of a claim. -/
def Claim.shown (s : Store) (claim : Claim) : Parts :=
  ⟨claim.terms.map s.read, claim.grouping.map s.read, claim.filter.map s.read⟩

/-- The parts of an aggregate with the given arguments. -/
def groupedParts (t function column label : Term) : Except Fault Parts :=
  if function.isWord then
    .ok ⟨[.call "as" [.call function.token [column], label]], some (.call "group" [column]), none⟩
  else .error (.grammar (.expectedColumn t.token))

/-- The parts of an aggregate. -/
def aggregateParts (t : Term) : Except Fault Parts :=
  match t.children with
  | [function, column] => groupedParts t function column anonymousLeaf
  | [function, column, label] => groupedParts t function column label
  | _ => .error (.grammar (.arity t.token "a function, a column and an optional alias"))

/-- The parts of a count of values. -/
def countedParts (t : Term) : Except Fault Parts :=
  match t.children with
  | column :: value :: values =>
    .ok ⟨(value :: values).map (countOf column), none,
      some (.call "in" (column :: value :: values))⟩
  | _ => .error (.grammar (.arity "countascol" "a column and at least one value"))

/-- The parts of a selection term. -/
def parts (t : Term) : Except Fault Parts :=
  let word := Text.lower t.token
  if word ∈ ["count", "sum", "min", "max"] then
    if t.isLeaf then .error (.grammar (.arity word "a column"))
    else .ok ⟨[.call "as" [t, anonymousLeaf]], none, none⟩
  else if word = "aggregate" ∨ word = "function" then aggregateParts t
  else if word = "countascol" then countedParts t
  else if word = "as" ∧ t.children.length ≠ 2 then
    .error (.grammar (.arity word "an expression and an alias"))
  else .ok ⟨[t], none, none⟩

/-- A selection term contributes its parts. -/
theorem shares_of_parts {t : Term} {p : Parts} (h : parts t = .ok p) :
    Shares t p.terms p.grouping p.filter := by
  unfold parts at h
  dsimp only at h
  split at h
  · next hword =>
    split at h
    · cases h
    · cases h
      exact .labelled hword
  · next hlabelled =>
    split at h
    · have hgrouped : ∀ {function column label : Term},
          t.children = [function, column] ∧ label = anonymousLeaf ∨
            t.children = [function, column, label] →
          groupedParts t function column label = .ok p → Shares t p.terms p.grouping p.filter := by
        intro function column label hchildren hparts
        unfold groupedParts at hparts
        split at hparts
        · next hfunction =>
          cases hparts
          exact .grouped hchildren hfunction
        · cases hparts
      unfold aggregateParts at h
      split at h
      · next hchildren => exact hgrouped (.inl ⟨hchildren, rfl⟩) h
      · next hchildren => exact hgrouped (.inr hchildren) h
      · cases h
    · next hgrouped =>
      split at h
      · unfold countedParts at h
        split at h
        · next hchildren =>
          cases h
          exact .counted hchildren
        · cases h
      · next hcounted =>
        split at h
        · cases h
        · next has =>
          cases h
          refine .plain ?_ fun hword => by_contra fun hlength => has ⟨hword, hlength⟩
          simp only [List.mem_cons, List.not_mem_nil, or_false, not_or] at hlabelled hgrouped ⊢
          exact ⟨hlabelled.1, hlabelled.2.1, hlabelled.2.2.1, hlabelled.2.2.2, hgrouped.1,
            hgrouped.2, hcounted⟩

/-- A label is put over the term, and words beside it read as before. -/
theorem read_labelAnonymously (h : s₀.Over s) (hid : Loose s₀.size s id) :
    (labelAnonymously s id).2.read (labelAnonymously s id).1 =
        .call "as" [s.read id, anonymousLeaf] ∧
      ∀ x : WordId, x.index < s.size → (labelAnonymously s id).2.read x = s.read x := by
  obtain ⟨hplant, hlabel, hbeside⟩ := Store.edited_planted h anonymousLeaf
  have hover := (edited_label h hid).1.over h
  have hext := s.extends_plant anonymousLeaf
  have hlt : ∀ x ∈ [id, (s.plant anonymousLeaf).1], x.index < (s.plant anonymousLeaf).2.size := by
    simpa using ⟨(hbeside id hid).1.lt, hlabel.lt⟩
  obtain ⟨hcall, hold⟩ :=
    Store.read_call (hplant.over h).wellFormed "as" _ hlt hover.wellFormed
  refine ⟨?_, fun x hx => ?_⟩
  · have hread := hcall
    rw [List.map_cons, List.map_cons, List.map_nil, hext.read_eq h.wellFormed hid.lt,
      Store.read_plant] at hread
    exact hread
  · exact (hold x (Nat.lt_of_lt_of_le hx hext.size_le)).trans (hext.read_eq h.wellFormed hx)

/-- The grouping has a copy of the column, and the arguments read as before. -/
theorem read_groupingOf (h : s₀.Over s) (hid : Loose s₀.size s id) {column : WordId}
    (hcolumn : column ∈ s.children id) :
    (groupingOf s (s.children id) column).2.read (groupingOf s (s.children id) column).1 =
        .call "group" [s.read column] ∧
      ∀ x ∈ s.children id, (groupingOf s (s.children id) column).2.read x = s.read x := by
  obtain ⟨_, hover, hloose, _⟩ := Store.edited_detached h (h.children_within hid)
  have hread := Store.read_detachAll h.wellFormed hid.lt (fun x hx => hx)
  rw [groupingOf]
  refine ⟨?_, fun x hx => ?_⟩
  · rw [Store.read_plant, hread column hcolumn]
  · exact ((Store.extends_plant _ _).read_eq hover.wellFormed (hloose x hx).lt).trans (hread x hx)

/-- The words of an aggregate, as terms. -/
theorem read_callOf (h : s₀.Over s) (hid : Loose s₀.size s id) {ids : List WordId}
    {column : WordId} (hids : s.children id = ids) (hcolumn : column ∈ ids) (name : String) :
    (callOf s ids name column).2.read (callOf s ids name column).1 = .call name [s.read column] ∧
      (callOf s ids name column).2.read (groupingOf s ids column).1 =
        .call "group" [s.read column] ∧
      ∀ x ∈ ids, (callOf s ids name column).2.read x = s.read x := by
  have hs' := ((edited_callOf h hid hids hcolumn name).1.over h).wellFormed
  subst hids
  obtain ⟨hedited, hgrouping, hloose⟩ := edited_groupingOf h hid column
  obtain ⟨hreadgrouping, hread⟩ := read_groupingOf h hid hcolumn
  rw [callOf] at hs' ⊢
  obtain ⟨hcall, hold⟩ := Store.read_call (hedited.over h).wellFormed name [column]
    (by simpa using (hloose column hcolumn).1.lt) hs'
  rw [List.map_cons, List.map_nil, hread column hcolumn] at hcall
  exact ⟨hcall, (hold _ hgrouping.lt).trans hreadgrouping,
    fun x hx => (hold x (hloose x hx).1.lt).trans (hread x hx)⟩

/-- An aggregate with the given arguments gives its parts. -/
theorem read_grouped (h : s₀.Over s) (hid : Loose s₀.size s id) {function column : WordId}
    (hname : (s.isLeaf function && !s.isQuoted function) = true) :
    (s.children id = [function, column] →
      (Claim.shown (aggregate s id).2) <$> (aggregate s id).1 =
        groupedParts (s.read id) (s.read function) (s.read column) anonymousLeaf) ∧
    ∀ label, s.children id = [function, column, label] →
      (Claim.shown (aggregate s id).2) <$> (aggregate s id).1 =
        groupedParts (s.read id) (s.read function) (s.read column) (s.read label) := by
  have hs := h.wellFormed
  have hs' := ((contributed_aggregate h hid).edited.over h).wellFormed
  have hword : function ∈ s.children id → (s.read function).isWord = true := by
    intro hfunction
    rw [Term.isWord, hs.isLeaf_read (hs.child_lt hfunction), s.isQuoted_read]
    exact hname
  refine ⟨fun hchildren => ?_, fun label hchildren => ?_⟩
  · have hcolumn : column ∈ [function, column] := by simp
    obtain ⟨hcall, hgrouping, _⟩ := read_callOf h hid hchildren hcolumn (s.token function)
    obtain ⟨hedited, hloose, ⟨hbeside, _⟩, _⟩ :=
      edited_callOf h hid hchildren hcolumn (s.token function)
    obtain ⟨hnamed, hkept⟩ := read_labelAnonymously (hedited.over h) hloose
    have hgrouping' := (hkept _ hbeside.lt).trans hgrouping
    rw [aggregate_pair hchildren hname, groupedParts,
      if_pos (hword (by rw [hchildren]; exact List.mem_cons_self)), s.token_read]
    refine congrArg Except.ok ?_
    simp only [Claim.shown, List.map_cons, List.map_nil, Option.map_some, Option.map_none]
    rw [hnamed, hcall, hgrouping']
  · have hcolumn : column ∈ [function, column, label] := by simp
    obtain ⟨hcall, hgrouping, hread⟩ := read_callOf h hid hchildren hcolumn (s.token function)
    obtain ⟨hedited, hloose, ⟨hbeside, _⟩, hothers⟩ :=
      edited_callOf h hid hchildren hcolumn (s.token function)
    have hlabel : label.index < (callOf s [function, column, label] (s.token function) column).2.size := by
      have hnodup := hs.nodup id
      rw [hchildren] at hnodup
      simp only [List.nodup_cons, List.mem_singleton] at hnodup
      exact (hothers label (by simp) (Ne.symm hnodup.2.1)).1.lt
    rw [aggregate_triple hchildren hname] at hs'
    obtain ⟨hnamed, hkept⟩ := Store.read_call (hedited.over h).wellFormed "as"
      [(callOf s [function, column, label] (s.token function) column).1, label]
      (by simpa using ⟨hloose.lt, hlabel⟩) hs'
    have hgrouping' := (hkept _ hbeside.lt).trans hgrouping
    rw [aggregate_triple hchildren hname, groupedParts,
      if_pos (hword (by rw [hchildren]; exact List.mem_cons_self)), s.token_read]
    refine congrArg Except.ok ?_
    simp only [Claim.shown, List.map_cons, List.map_nil, Option.map_some, Option.map_none]
      at hnamed ⊢
    rw [hnamed, hcall, hgrouping', hread label (by simp)]

/-- An aggregate gives the parts that its term has. -/
theorem read_aggregate (h : s₀.Over s) (hid : Loose s₀.size s id) :
    (Claim.shown (aggregate s id).2) <$> (aggregate s id).1 = aggregateParts (s.read id) := by
  have hs := h.wellFormed
  have hterms := hs.children_read hid.lt
  -- a function that is no word is the fault of both, whatever else is there
  have hnoword : ∀ {function : WordId}, function ∈ s.children id →
      (s.isLeaf function && !s.isQuoted function) = false → (s.read function).isWord = false := by
    intro function hfunction hname
    rw [Term.isWord, hs.isLeaf_read (hs.child_lt hfunction), s.isQuoted_read]
    exact hname
  unfold aggregateParts
  rw [hterms]
  rcases hchildren : s.children id with
    _ | ⟨function, _ | ⟨column, _ | ⟨label, _ | ⟨other, others⟩⟩⟩⟩
  · simp only [aggregate, hchildren, List.map_nil, s.token_read]
    rfl
  · simp only [aggregate, hchildren, List.map_cons, List.map_nil, s.token_read]
    rfl
  · cases hname : s.isLeaf function && !s.isQuoted function with
    | true => exact (read_grouped h hid hname).1 hchildren
    | false =>
      have hfunction := hnoword (by rw [hchildren]; exact List.mem_cons_self) hname
      simp only [aggregate, hchildren, hname, List.map_cons, List.map_nil, groupedParts, hfunction,
        s.token_read]
      rfl
  · cases hname : s.isLeaf function && !s.isQuoted function with
    | true => exact (read_grouped h hid hname).2 label hchildren
    | false =>
      have hfunction := hnoword (by rw [hchildren]; exact List.mem_cons_self) hname
      simp only [aggregate, hchildren, hname, List.map_cons, List.map_nil, groupedParts, hfunction,
        s.token_read]
      rfl
  · simp only [aggregate, hchildren, List.map_cons, s.token_read]
    rfl

/-- A count of values gives the parts that its term has. -/
theorem read_countAsColumns (h : s₀.Over s) (hid : Loose s₀.size s id) :
    (Claim.shown (countAsColumns s id).2) <$> (countAsColumns s id).1 =
      countedParts (s.read id) := by
  have hs := h.wellFormed
  have hterms := hs.children_read hid.lt
  have hwithin := h.children_within hid
  have hs' := ((contributed_countAsColumns h hid).edited.over h).wellFormed
  unfold countedParts
  rw [hterms]
  rcases hchildren : s.children id with _ | ⟨column, _ | ⟨value, values⟩⟩
  · simp only [countAsColumns, hchildren, List.map_nil]
    rfl
  · simp only [countAsColumns, hchildren, List.map_cons, List.map_nil]
    rfl
  · rw [hchildren] at hwithin
    have hlt : ∀ x ∈ column :: value :: values, x.index < s.size := fun x hx => (hwithin x hx).2
    have hcounts : (value :: values).map (fun v => countOf (s.read column) (s.read v)) =
        ((value :: values).map s.read).map (countOf (s.read column)) := by
      rw [List.map_map]
      rfl
    simp only [countAsColumns, hchildren, hcounts] at hs' ⊢
    generalize hmany : ((value :: values).map s.read).map (countOf (s.read column)) = counts at hs' ⊢
    have hplant := Store.edited_plantAll counts h.wellFormed h.extension.size_le
    have hext := s.extends_plantAll counts
    have hwords : (s.plantAll counts).2.children id = column :: value :: values := by
      rw [Store.children, hext.word_eq id hid.lt, ← hchildren]
      rfl
    obtain ⟨_, hover, hloose, hothers⟩ := Store.edited_detached (hplant.over h)
      fun x hx => ⟨(hwithin x hx).1, Nat.lt_of_lt_of_le (hlt x hx) hext.size_le⟩
    have hnew := fun x hx =>
      (hothers x ((Store.loose_plantAll h.extension.size_le counts).2 x hx)).lt
    have hkept : ∀ x ∈ column :: value :: values,
        ((s.plantAll counts).2.detachAll (column :: value :: values)).read x = s.read x := by
      intro x hx
      rw [← hwords] at hx ⊢
      rw [Store.read_detachAll (hplant.over h).wellFormed (Nat.lt_of_lt_of_le hid.lt hext.size_le)
        (fun y hy => hy) x hx]
      exact hext.read_eq hs (hlt x (hwords ▸ hx))
    obtain ⟨hfilter, hold⟩ :=
      Store.read_call hover.wellFormed "in" _ (fun x hx => (hloose x hx).lt) hs'
    have hplanted := Store.read_plantAll s counts hlt
    have hcounted := (List.map_congr_left fun x hx => hold x (hnew x hx)).trans hplanted
    refine congrArg Except.ok ?_
    simp only [Claim.shown, Option.map_some, Option.map_none]
    rw [hcounted, hfilter, List.map_congr_left hkept, ← hmany]
    rfl

/-- A selection term gives its parts. -/
theorem read_claim (h : s₀.Over s) (hid : Loose s₀.size s id) :
    (Claim.shown (claim s id).2) <$> (claim s id).1 = parts (s.read id) := by
  have hleaf := h.wellFormed.isLeaf_read hid.lt
  have hlength : (s.read id).children.length = (s.children id).length := by
    rw [h.wellFormed.children_read hid.lt, List.length_map]
  unfold claim parts
  simp only [s.token_read, hleaf, hlength]
  split
  · split
    · rfl
    · refine congrArg Except.ok ?_
      simp only [Claim.shown, Claim.only, List.map_cons, List.map_nil, Option.map_none]
      rw [(read_labelAnonymously h hid).1]
  · split
    · exact read_aggregate h hid
    · split
      · exact read_countAsColumns h hid
      · split
        · rfl
        · rfl

/-- What a selection term contributes, as terms. -/
theorem shares_claim (h : s₀.Over s) (hid : Loose s₀.size s id) {found : Claim}
    (hclaim : claim s id = (.ok found, s')) :
    Shares (s.read id) (found.terms.map s'.read) (found.grouping.map s'.read)
      (found.filter.map s'.read) := by
  have hparts := read_claim h hid
  rw [hclaim] at hparts
  exact shares_of_parts hparts.symm

end Selection

/-! ## Filters -/

/-- Terms with different roots have no word in common. -/
theorem Store.disjoint_of_roots {s : Store} (hs : s.WellFormed) {P Q : Plot} (hP : s.Shows P)
    (hQ : s.Shows Q) (hProot : s.parent P.id = none) (hQroot : s.parent Q.id = none)
    (hne : P.id ≠ Q.id) : ∀ x ∈ P.ids, x ∉ Q.ids := by
  intro x hxP hxQ
  obtain ⟨up, hdepth, hclimb⟩ := hP.exists_climb hs (.root hProot) x hxP
  obtain ⟨up', hdepth', hclimb'⟩ := hQ.exists_climb hs (.root hQroot) x hxQ
  have hup : up = up' := by
    have hsame := hdepth.unique hdepth'
    omega
  rw [hup, hclimb'] at hclimb
  exact hne (Option.some.inj hclimb).symm

namespace Condition

variable {c : Collection} {s₀ s s' : Store} {id : WordId}

theorem findAll_key_eq_nil (hs : s.WellFormed) (hid : id.index < s.size)
    (h : ∀ u ∈ (s.read id).subterms, u.role ≠ some .key) : s.findAll id "_key" = [] := by
  obtain ⟨P, rfl, hP, hnodup⟩ := hs.exists_plot hid
  rw [hP.read_eq hnodup] at h
  refine List.eq_nil_iff_forall_not_mem.2 fun x hx => ?_
  obtain ⟨Q, hQ, rfl, hrole⟩ := (mem_findAll_iff (r := .key) hP hnodup).1 hx
  exact h Q.term (Plot.mem_subterms_iff.2 ⟨Q, hQ, rfl⟩) hrole

/-- A key gives way in one term; others are shown as before. -/
theorem shows_replace (hs : s.WellFormed) {R : Plot} (hR : s.Shows R) (hid : id ∉ R.ids)
    (hlt : id.index < s.size) (t : Term) :
    ((s.plant t).2.replace id (s.plant t).1).2.Shows R := by
  have hext := s.extends_plant t
  have hfresh := Store.loose_plant (n := s.size) (Nat.le_refl _) t
  have hne : id ≠ (s.plant t).1 := by
    rintro rfl
    exact absurd hfresh.le (Nat.not_le_of_lt hlt)
  have hwf := Store.WellFormed.plant t hs
  have hR' := hext.shows hR
  cases hparent : (s.plant t).2.parent id with
  | none =>
    rw [Store.replace, if_neg hne, Store.detach_of_root hfresh.root]
    simp only [hparent]
    exact hR'
  | some p =>
    refine (Store.replaced_replace hne hfresh.root hparent (hwf.parent_lt hparent)).shows hR' ?_
    exact fun hp => hid (R.mem_ids_of_mem_inner (hR'.mem_inner hp (hwf.linked.2 hparent)))

/-- Resolving keys leaves a term shown that has none of their words. -/
theorem shows_resolveKeysAt (ids : List WordId) :
    ∀ {s : Store} {root : WordId} {R : Plot}, s₀.Over s →
      (∀ x ∈ ids, s₀.size ≤ x.index ∧ x.index < s.size) → s.Shows R → (∀ x ∈ ids, x ∉ R.ids) →
      (resolveKeysAt c ids root s).2.Shows R := by
  induction ids with
  | nil => exact fun _ _ hR _ => hR
  | cons id ids ih =>
    intro s root R hover hids hR hapart
    obtain ⟨hle, hlt⟩ := hids id List.mem_cons_self
    have hrest := fun x hx => hids x (List.mem_cons_of_mem id hx)
    have hapart' := fun x hx => hapart x (List.mem_cons_of_mem id hx)
    unfold resolveKeysAt
    cases keyComparisons c (s.read id) with
    | error fault => exact hR
    | ok expansion =>
      have hext := s.extends_plant expansion
      have hplanted := (Store.edited_planted hover expansion).1.over hover
      by_cases hid : id = root
      · simp only [if_pos hid]
        exact ih hplanted
          (fun x hx => ⟨(hrest x hx).1, Nat.lt_of_lt_of_le (hrest x hx).2 hext.size_le⟩)
          (hext.shows hR) hapart'
      · simp only [if_neg hid]
        obtain ⟨hreplace, hkept⟩ := Store.replace_planted hover hle hlt expansion
        exact ih (hreplace.over hplanted)
          (fun x hx => ⟨(hrest x hx).1, Nat.lt_of_lt_of_le (hrest x hx).2 hkept.size_le⟩)
          (shows_replace hover.wellFormed hR (hapart id List.mem_cons_self) hlt expansion) hapart'

/-- Widening equations leaves a term shown that has none of their words. -/
theorem shows_widenEquations {F R : Plot} (hF : s.Shows F) (hnodup : F.ids.Nodup) (hR : s.Shows R)
    (hapart : ∀ x ∈ R.ids, x ∉ F.ids) : (widenEquations F.id s).Shows R := by
  obtain ⟨hrenamed, htoken⟩ := foldl_widenAt (s.findAll F.id "eq") s
  refine hR.of_agrees (Nat.le_of_eq hrenamed.size_eq.symm) fun x hx =>
    ⟨(htoken x).trans (if_neg fun hwide => ?_), hrenamed.quote_eq x, hrenamed.children_eq x⟩
  have hmem := (List.mem_filter.1 hwide.1).1
  rw [hF.preorder_eq hnodup] at hmem
  exact hapart x hx hmem

/-- What a claim on the filter takes are the conjuncts of a term without wide
equations, which is the claimed one, widened, if that has no keys; and a term
beside the claimed one is shown as before. -/
theorem claim_shows (h : s₀.Over s) (hid : Loose s₀.size s id) {ids : List WordId}
    (hclaim : claim c s id = (.ok ids, s')) :
    (∃ t, ids.map s'.read = (widen t).conjuncts ∧
      ((∀ u ∈ (s.read id).subterms, u.role ≠ some .key) → t = s.read id)) ∧
      ∀ {R : Plot}, s.Shows R → s.parent R.id = none → R.id ≠ id → s'.Shows R := by
  have hwithin := findAll_within h hid "_key"
  obtain ⟨hkeys, hkept, hroot⟩ := edited_resolveKeysAt (c := c) _ h hwithin hid
  unfold claim at hclaim
  split at hclaim
  · cases hclaim
  · next root s₁ hresolve =>
    have hs₁ : (resolveKeysAt c (s.findAll id "_key") id s).2 = s₁ := congrArg Prod.snd hresolve
    have hover := hkeys.over h
    obtain ⟨hloose, hwhich⟩ := hroot root (congrArg Prod.fst hresolve)
    rw [hs₁] at hkept hover hloose
    obtain ⟨F, rfl, hF, hFnodup⟩ := hover.wellFormed.exists_plot hloose.lt
    obtain ⟨W, hWid, hW, hWnodup, hWterm⟩ := widenEquations_shows hF hFnodup
    have hfuel : W.ids.length ≤ (widenEquations F.id s₁).size + 1 :=
      Nat.le_succ_of_le (Store.length_le_size hWnodup hW.ids_lt)
    have hparted := parted_conjuncts _ hWnodup hfuel hW
    rw [hWid] at hparted
    simp only [Prod.mk.injEq, Except.ok.injEq] at hclaim
    obtain ⟨rfl, rfl⟩ := hclaim
    refine ⟨⟨F.term, ?_, fun hkeyless => ?_⟩, fun {R} hR hRroot hne => ?_⟩
    · obtain ⟨Ps, hids, hterms, hPs⟩ := hparted.plots
      rw [← hWterm, ← hterms, hids, List.map_map]
      exact List.map_congr_left fun Q hQ => (hPs Q hQ).1.read_eq (hPs Q hQ).2.1
    · rw [resolveKeys, findAll_key_eq_nil h.wellFormed hid.lt hkeyless, resolveKeysAt] at hresolve
      cases hresolve
      exact (hF.read_eq hFnodup).symm
    -- `R` is apart from what is edited at each of the three stages: keys, equations, conjuncts
    · have hR₁ : s₁.Shows R := by
        obtain ⟨P, rfl, hP, hPnodup⟩ := h.wellFormed.exists_plot hid.lt
        have hapart := Store.disjoint_of_roots h.wellFormed hP hR hid.root hRroot hne.symm
        rw [← hs₁]
        refine shows_resolveKeysAt _ h hwithin hR fun x hx => hapart x ?_
        have hmem := (List.mem_filter.1 hx).1
        rwa [hP.preorder_eq hPnodup] at hmem
      have hRroot₁ := hkept.root R.id hR.id_lt hRroot
      have hne₁ : R.id ≠ F.id := by
        rintro heq
        rcases hwhich with hwhich | hwhich
        · exact hne (heq.trans hwhich)
        · rw [← heq] at hwhich
          exact absurd hR.id_lt (Nat.not_lt_of_le hwhich)
      have hR₂ := shows_widenEquations hF hFnodup hR₁
        (Store.disjoint_of_roots hover.wellFormed hR₁ hF hRroot₁ hloose.root hne₁)
      obtain ⟨hwiden, hkept'⟩ := edited_widen hover hloose
      have hapart := Store.disjoint_of_roots (hwiden.over hover).wellFormed hR₂ hW
        (hkept'.root R.id hR₁.id_lt hRroot₁) (by rw [hWid]; exact hkept'.root F.id hloose.lt hloose.root)
        (by rwa [hWid])
      exact hparted.frame hR₂ fun x hx hx' =>
        hapart x (R.mem_ids_of_mem_inner hx) (W.mem_ids_of_mem_inner hx')

/-- A loose word beside the claimed one reads as before. -/
theorem read_claim_beside (h : s₀.Over s) (hid : Loose s₀.size s id) {ids : List WordId}
    (hclaim : claim c s id = (.ok ids, s')) {x : WordId} (hx : Loose s₀.size s x) (hne : x ≠ id) :
    s'.read x = s.read x := by
  obtain ⟨R, rfl, hR, hnodup⟩ := h.wellFormed.exists_plot hx.lt
  rw [hR.read_eq hnodup, ((claim_shows h hid hclaim).2 hR hx.root hne).read_eq hnodup]

end Condition
end ResourceQuery

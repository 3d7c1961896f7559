import ResourceQuery.ColumnPath
import ResourceQuery.Proofs.Outcome

set_option autoImplicit false

/-!
# Column paths: where they lead

A path that is followed through relationships and a path that is resolved inside
a collection, by their segments.  Where both ways come to a result the path has
no dot, and they come to the same property.  The text of a route determines the
steps that were taken.

Walks are compared by their segments, which the text of a path determines and is
determined by (`segments_intercalate`).  That is what lets routes be remembered
by their texts.
-/

namespace ResourceQuery

/-! ## Dividing a text -/

namespace Text

theorem divideChars_of_not_mem {sep : Char} {cs : List Char} (h : sep ∉ cs) :
    divideChars sep cs = [cs] := by
  induction cs with
  | nil => rfl
  | cons c cs ih =>
    rw [List.mem_cons, not_or] at h
    rw [divideChars, if_neg (Ne.symm h.1), ih h.2]

theorem divideChars_append {sep : Char} {cs rest : List Char} (h : sep ∉ cs) :
    divideChars sep (cs ++ sep :: rest) = cs :: divideChars sep rest := by
  induction cs with
  | nil => rw [List.nil_append, divideChars, if_pos rfl]
  | cons c cs ih =>
    rw [List.mem_cons, not_or] at h
    rw [List.cons_append, divideChars, if_neg (Ne.symm h.1), ih h.2]

theorem not_mem_of_mem_divideChars {sep : Char} {cs : List Char} :
    ∀ piece ∈ divideChars sep cs, sep ∉ piece := by
  induction cs with
  | nil =>
    intro piece hpiece
    rw [List.mem_singleton.1 hpiece]
    exact List.not_mem_nil
  | cons c cs ih =>
    rw [divideChars]
    split
    · intro piece hpiece
      rcases List.mem_cons.1 hpiece with rfl | hpiece
      · exact List.not_mem_nil
      · exact ih piece hpiece
    · next hc =>
      have hne := divideChars_ne_nil sep cs
      cases hpieces : divideChars sep cs with
      | nil => exact absurd hpieces hne
      | cons first pieces =>
        rw [hpieces] at ih
        intro piece hpiece
        rcases List.mem_cons.1 hpiece with rfl | hpiece
        · rw [List.mem_cons, not_or]
          exact ⟨Ne.symm hc, ih first List.mem_cons_self⟩
        · exact ih piece (List.mem_cons_of_mem first hpiece)

/-- Stretches without the separator, once joined, are what the text is divided into. -/
theorem divideChars_intercalate {sep : Char} {parts : List (List Char)} (hne : parts ≠ [])
    (h : ∀ part ∈ parts, sep ∉ part) : divideChars sep ([sep].intercalate parts) = parts := by
  induction parts with
  | nil => exact absurd rfl hne
  | cons part parts ih =>
    have hpart := h part List.mem_cons_self
    cases parts with
    | nil => rw [List.intercalate_singleton, divideChars_of_not_mem hpart]
    | cons next parts =>
      rw [List.intercalate_cons_cons, List.append_assoc, List.singleton_append,
        divideChars_append hpart,
        ih (List.cons_ne_nil _ _) fun p hp => h p (List.mem_cons_of_mem part hp)]

end Text

namespace ColumnPath

theorem segments_ne_nil (path : String) : segments path ≠ [] := by
  rw [segments, Text.divide, ne_eq, List.map_eq_nil_iff]
  exact Text.divideChars_ne_nil '.' path.toList

theorem not_mem_of_mem_segments {path name : String} (h : name ∈ segments path) :
    '.' ∉ name.toList := by
  obtain ⟨piece, hpiece, rfl⟩ := List.mem_map.1 h
  rw [String.toList_ofList]
  exact Text.not_mem_of_mem_divideChars piece hpiece

theorem segments_of_not_mem {name : String} (h : '.' ∉ name.toList) : segments name = [name] := by
  rw [segments, Text.divide, Text.divideChars_of_not_mem h, List.map_singleton,
    String.ofList_toList]

theorem segments_intercalate {names : List String} (hne : names ≠ [])
    (h : ∀ name ∈ names, '.' ∉ name.toList) : segments (".".intercalate names) = names := by
  have hchars : ∀ part ∈ names.map String.toList, '.' ∉ part := by
    intro part hpart
    obtain ⟨name, hname, rfl⟩ := List.mem_map.1 hpart
    exact h name hname
  have hdivide := Text.divideChars_intercalate (fun hnil => hne (List.map_eq_nil_iff.1 hnil)) hchars
  rw [segments, Text.divide, String.toList_intercalate]
  have hid : String.ofList ∘ String.toList = id := funext fun _ => String.ofList_toList
  refine (congrArg (List.map String.ofList) hdivide).trans ?_
  rw [List.map_map, hid, List.map_id]

/-! ## Following relationships -/

variable {catalog : Catalog} {root current final : Collection} {limit : Nat} {path : String}
  {walked names names' : List String} {steps : List Step}

theorem walk_nil_ok_iff :
    walk catalog current walked [] = .ok (steps, final) ↔ steps = [] ∧ final = current := by
  unfold walk
  rw [Except.ok.injEq, Prod.mk.injEq, eq_comm, @eq_comm _ current]

theorem walk_cons_ok_iff {name : String} :
    walk catalog current walked (name :: names) = .ok (steps, final) ↔
    ∃ relationship target rest, current.relationship? name = some relationship ∧
      catalog.collection relationship.related = .ok target ∧
      walk catalog target (walked ++ [name]) names = .ok (rest, final) ∧
      steps = ⟨".".intercalate (walked ++ [name]), relationship, target⟩ :: rest := by
  rw [walk]
  cases hname : current.relationship? name with
  | none => simp
  | some relationship =>
    constructor
    · intro h
      obtain ⟨target, htarget, h⟩ := bind_eq_ok_iff.1 h
      obtain ⟨⟨rest, final'⟩, hwalk, h⟩ := bind_eq_ok_iff.1 h
      cases h
      exact ⟨relationship, target, rest, rfl, htarget, hwalk, rfl⟩
    · rintro ⟨_, target, rest, ⟨rfl⟩, htarget, hwalk, rfl⟩
      exact bind_eq_ok_iff.2 ⟨target, htarget, bind_eq_ok_iff.2 ⟨_, hwalk, rfl⟩⟩

/-- A walk along more names goes on where the walk along the first ones stops. -/
theorem walk_append_ok
    (h : walk catalog current walked (names ++ names') = .ok (steps, final)) :
    ∃ before mid after, walk catalog current walked names = .ok (before, mid) ∧
      steps = before ++ after := by
  induction names generalizing current walked steps with
  | nil => exact ⟨[], current, steps, walk_nil_ok_iff.2 ⟨rfl, rfl⟩, rfl⟩
  | cons name names ih =>
    obtain ⟨relationship, target, rest, hname, htarget, hwalk, rfl⟩ := walk_cons_ok_iff.1 h
    obtain ⟨before, mid, after, hbefore, rfl⟩ := ih hwalk
    exact ⟨_, mid, after, walk_cons_ok_iff.2 ⟨relationship, target, before, hname, htarget, hbefore,
      rfl⟩, rfl⟩

/-- A walk stops on the way at each of its steps. -/
theorem exists_walk_of_append {before after : List Step}
    (h : walk catalog current walked names = .ok (before ++ after, final)) :
    ∃ first mid, first <+: names ∧ walk catalog current walked first = .ok (before, mid) := by
  induction before generalizing current walked names with
  | nil => exact ⟨[], current, List.nil_prefix, walk_nil_ok_iff.2 ⟨rfl, rfl⟩⟩
  | cons step before ih =>
    cases names with
    | nil => cases (walk_nil_ok_iff.1 h).1
    | cons name names =>
      obtain ⟨relationship, target, rest, hname, htarget, hwalk, hsteps⟩ := walk_cons_ok_iff.1 h
      obtain ⟨rfl, rfl⟩ := List.cons.inj hsteps
      obtain ⟨first, mid, hinitial, hfirst⟩ := ih hwalk
      exact ⟨name :: first, mid, List.cons_prefix_cons.2 ⟨rfl, hinitial⟩,
        walk_cons_ok_iff.2 ⟨relationship, target, before, hname, htarget, hfirst, rfl⟩⟩

/-- The route of the last step is the text of the whole way. -/
theorem route_of_walk {step : Step}
    (h : walk catalog current walked names = .ok (steps ++ [step], final)) :
    names ≠ [] ∧ step.route = ".".intercalate (walked ++ names) := by
  induction steps generalizing current walked names with
  | nil =>
    cases names with
    | nil => cases (walk_nil_ok_iff.1 h).1
    | cons name names =>
      obtain ⟨_, _, rest, _, _, hwalk, hsteps⟩ := walk_cons_ok_iff.1 h
      obtain ⟨rfl, rfl⟩ := List.cons.inj hsteps
      cases names with
      | nil => exact ⟨List.cons_ne_nil _ _, rfl⟩
      | cons next names =>
        obtain ⟨_, _, _, _, _, _, hnil⟩ := walk_cons_ok_iff.1 hwalk
        cases hnil
  | cons first steps ih =>
    cases names with
    | nil => cases (walk_nil_ok_iff.1 h).1
    | cons name names =>
      obtain ⟨_, _, rest, _, _, hwalk, hsteps⟩ := walk_cons_ok_iff.1 h
      obtain ⟨_, rfl⟩ := List.cons.inj hsteps
      obtain ⟨_, hroute⟩ := ih hwalk
      rw [List.append_assoc, List.singleton_append] at hroute
      exact ⟨List.cons_ne_nil _ _, hroute⟩

/-- How a path is followed: along the relationships that its segments name, but
for the last one, which names the property. -/
theorem follow_ok {resolved : Resolved} (h : follow catalog root limit path = .ok resolved) :
    ∃ names last final, segments path = names ++ [last] ∧
      walk catalog root [] names = .ok (resolved.steps, final) ∧
      final.property last = .ok resolved.property := by
  have hsplit := List.dropLast_concat_getLast (segments_ne_nil path)
  unfold follow at h
  dsimp only at h
  split at h
  · cases h
  · split at h
    · cases h
    · obtain ⟨⟨steps, final⟩, hwalk, h⟩ := bind_eq_ok_iff.1 h
      obtain ⟨property, hproperty, h⟩ := bind_eq_ok_iff.1 h
      cases h
      rw [List.getLastD_eq_getLast?, List.getLast?_eq_some_getLast (segments_ne_nil path)]
        at hproperty
      exact ⟨_, _, final, hsplit.symm, hwalk, hproperty⟩

/-- A name without a dot is followed to the property of that name. -/
theorem follow_plain {name : String} {resolved : Resolved} (hdot : '.' ∉ name.toList)
    (h : follow catalog root limit name = .ok resolved) :
    resolved.steps = [] ∧ root.property name = .ok resolved.property := by
  obtain ⟨names, last, final, hsegments, hwalk, hproperty⟩ := follow_ok h
  rw [segments_of_not_mem hdot] at hsegments
  cases names with
  | nil =>
    obtain ⟨rfl, _⟩ := List.cons.inj hsegments
    obtain ⟨hsteps, rfl⟩ := walk_nil_ok_iff.1 hwalk
    exact ⟨hsteps, hproperty⟩
  | cons _ names => exact absurd (congrArg List.length hsegments) (by simp)

/-! ## Resolving inside a collection -/

/-- How a path is resolved inside a collection: to the column of its first
segment and the names behind it, to a nested field only where that segment is no
relationship, and then as a text. -/
theorem inside_ok {backend : String} {columns : List String} {property : Property}
    (h : inside backend root path = .ok (columns, property)) :
    ∃ first nested found, segments path = first :: nested ∧
      (nested ≠ [] → root.relationship? first = none) ∧ root.property first = .ok found ∧
      columns = found.columnName :: nested ∧
      property = if nested = [] then found else ⟨path, none, .string, true⟩ := by
  cases hsegments : segments path with
  | nil => exact absurd hsegments (segments_ne_nil path)
  | cons first nested =>
    unfold inside at h
    rw [hsegments] at h
    dsimp only [List.headD, List.tail] at h
    split at h
    · cases h
    · next hrelationship =>
      split at h
      · cases h
      · obtain ⟨found, hfound, h⟩ := bind_eq_ok_iff.1 h
        cases h
        refine ⟨first, nested, found, rfl, fun hnested => ?_, hfound, rfl, rfl⟩
        rw [not_and] at hrelationship
        simpa using hrelationship hnested

/-- Every target without joins reads a path by the same property. -/
theorem eq_of_inside {backend backend' : String} {columns columns' : List String}
    {property property' : Property} (h : inside backend root path = .ok (columns, property))
    (h' : inside backend' root path = .ok (columns', property')) : property = property' := by
  obtain ⟨first, nested, found, hsegments, _, hfound, _, rfl⟩ := inside_ok h
  obtain ⟨first', nested', found', hsegments', _, hfound', _, rfl⟩ := inside_ok h'
  obtain ⟨rfl, rfl⟩ := List.cons.inj (hsegments.symm.trans hsegments')
  obtain rfl := Except.ok.inj (hfound.symm.trans hfound')
  rfl

/-- With and without joins a path is read by the same property, where both ways
exist: the first segment of a path with a dot would have to be a relationship
and must not be one. -/
theorem eq_of_follow_of_inside {backend : String} {columns : List String} {resolved : Resolved}
    {property : Property} (h : follow catalog root limit path = .ok resolved)
    (h' : inside backend root path = .ok (columns, property)) : resolved.property = property := by
  obtain ⟨names, last, final, hsegments, hwalk, hproperty⟩ := follow_ok h
  obtain ⟨first, nested, found, hsegments', hrelationship, hfound, _, rfl⟩ := inside_ok h'
  rw [hsegments] at hsegments'
  cases names with
  | nil =>
    obtain ⟨rfl, rfl⟩ := List.cons.inj hsegments'
    obtain ⟨_, rfl⟩ := walk_nil_ok_iff.1 hwalk
    rw [if_pos rfl]
    exact Except.ok.inj (hproperty.symm.trans hfound)
  | cons name names =>
    obtain ⟨rfl, rfl⟩ := List.cons.inj hsegments'
    obtain ⟨relationship, _, _, hname, _⟩ := walk_cons_ok_iff.1 hwalk
    rw [hrelationship (by simp)] at hname
    cases hname

end ColumnPath
end ResourceQuery

import Mathlib.Data.List.Nodup
import Mathlib.Data.List.Perm.Basic
import ResourceQuery.Proofs.KeyValue.Filters
import ResourceQuery.Proofs.Number.Numeral
import ResourceQuery.Proofs.Statement.Columns

set_option autoImplicit false

/-!
# Key-value requests: the maps of names and values

The two maps of a request have the keys `#name1`, `#name2`, … and `:val1`,
`:val2`, …, each once. The names are those of the segments that the paths of the
request lead to, and each of them has a stand-in among the columns.

Maps are kept in the order of their keys, not of their numbers, so they are
compared with the lists that they were made from up to the order.  That the
names are those of the paths is carried along a run by `Introduced`.
-/

namespace ResourceQuery.KeyValue

/-! ## Maps in the order of their keys -/

section Maps

variable {α : Type}

theorem perm_insertField {key : String} {value : α} {fields : List (String × α)}
    (h : key ∉ fields.map Prod.fst) :
    (insertField key value fields).Perm ((key, value) :: fields) := by
  induction fields with
  | nil => exact .refl _
  | cons field fields ih =>
    obtain ⟨k, v⟩ := field
    rw [List.map_cons, List.mem_cons, not_or] at h
    rw [insertField, if_neg h.1]
    split
    · exact .refl _
    · exact ((ih h.2).cons (k, v)).trans (.swap _ _ _)

/-- Fields with different keys all come into the map. -/
theorem perm_foldl_insertField (fields : List (String × α)) : ∀ map : List (String × α),
    ((map ++ fields).map Prod.fst).Nodup →
      (fields.foldl (fun map f => insertField f.1 f.2 map) map).Perm (map ++ fields) := by
  induction fields with
  | nil =>
    intro map _
    rw [List.append_nil]
    exact .refl _
  | cons field fields ih =>
    intro map hnodup
    have hmiddle : (map ++ field :: fields).Perm (field :: map ++ fields) := List.perm_middle
    have hnodup' : ((field :: map ++ fields).map Prod.fst).Nodup :=
      (hmiddle.map Prod.fst).nodup_iff.1 hnodup
    have hfresh : field.1 ∉ map.map Prod.fst := by
      rw [List.cons_append, List.map_cons, List.nodup_cons, List.map_append] at hnodup'
      exact fun hmem => hnodup'.1 (List.mem_append_left _ hmem)
    have hinsert : (insertField field.1 field.2 map ++ fields).Perm (field :: map ++ fields) :=
      (perm_insertField hfresh).append_right fields
    rw [List.foldl_cons]
    refine (ih _ ?_).trans (hinsert.trans hmiddle.symm)
    exact (hinsert.map Prod.fst).nodup_iff.2 hnodup'

/-- A map has the fields it was made of, where their keys are different. -/
theorem perm_fieldMap {fields : List (String × α)} (h : (fields.map Prod.fst).Nodup) :
    (fieldMap fields).Perm fields :=
  perm_foldl_insertField fields [] h

/-! ## Numbered keys -/

/-- The map has the values under the numbered keys, and nothing else. -/
structure Enumerates (lead : String) (values : List α) (map : List (String × α)) : Prop where
  nodup : (map.map Prod.fst).Nodup
  mem_iff : ∀ key value, (key, value) ∈ map ↔
    ∃ i, values[i]? = some value ∧ key = lead ++ toString (i + 1)

theorem enumerates_fieldMap (lead : String) (values : List α) :
    Enumerates lead values
      (fieldMap (values.zipIdx.map fun x => (lead ++ toString (x.2 + 1), x.1))) := by
  have hkeys : ((values.zipIdx.map fun x => (lead ++ toString (x.2 + 1), x.1)).map
      Prod.fst).Nodup := by
    have hmap : (values.zipIdx.map fun x => (lead ++ toString (x.2 + 1), x.1)).map Prod.fst =
        (values.zipIdx.map Prod.snd).map fun i => lead ++ toString (i + 1) := by
      rw [List.map_map, List.map_map]
      rfl
    rw [hmap, List.zipIdx_map_snd]
    refine List.Nodup.map (fun i j h => ?_) List.nodup_range'
    exact Nat.succ.inj (Number.eq_of_append_toString h)
  have hperm := perm_fieldMap hkeys
  refine ⟨(hperm.map Prod.fst).nodup_iff.2 hkeys, fun key value => ?_⟩
  rw [hperm.mem_iff, List.mem_map]
  constructor
  · rintro ⟨⟨x, i⟩, hmem, heq⟩
    obtain ⟨rfl, rfl⟩ := Prod.mk.inj heq
    exact ⟨i, List.mk_mem_zipIdx_iff_getElem?.1 hmem, rfl⟩
  · rintro ⟨i, hvalue, rfl⟩
    exact ⟨(value, i), List.mk_mem_zipIdx_iff_getElem?.2 hvalue, rfl⟩

/-- The keys are those with the numbers up to that of the values. -/
theorem Enumerates.mem_keys_iff {lead : String} {values : List α} {map : List (String × α)}
    (h : Enumerates lead values map) {key : String} :
    key ∈ map.map Prod.fst ↔ ∃ k, 0 < k ∧ k ≤ values.length ∧ key = lead ++ toString k := by
  rw [List.mem_map]
  constructor
  · rintro ⟨⟨key', value⟩, hmem, rfl⟩
    obtain ⟨i, hvalue, hkey⟩ := (h.mem_iff key' value).1 hmem
    obtain ⟨hlt, _⟩ := List.getElem?_eq_some_iff.1 hvalue
    exact ⟨i + 1, Nat.succ_pos i, hlt, hkey⟩
  · rintro ⟨k, hpos, hle, rfl⟩
    obtain ⟨i, rfl⟩ := Nat.exists_eq_succ_of_ne_zero (Nat.pos_iff_ne_zero.1 hpos)
    exact ⟨(_, values[i]), (h.mem_iff _ _).2 ⟨i, List.getElem?_eq_getElem hle, rfl⟩, rfl⟩

end Maps

theorem enumerates_nameMap (names : Names) : Enumerates "#name" names (nameMap names) :=
  enumerates_fieldMap "#name" names

theorem enumerates_valueMap (values : Bindings) :
    Enumerates ":val" (values.map Prod.snd) (valueMap values) := by
  have hmap := enumerates_fieldMap ":val" (values.map Prod.snd)
  rw [List.zipIdx_map, List.map_map] at hmap
  exact hmap

/-! ## Names and the paths that they come from -/

/-- The path leads to an attribute with these segments. -/
def Leads (root : Collection) (path : String) (segments : List String) : Prop :=
  ∃ property, ColumnPath.inside backend root path = .ok (segments, property)

theorem Leads.unique {root : Collection} {path : String} {segments segments' : List String}
    (h : Leads root path segments) (h' : Leads root path segments') : segments = segments' := by
  obtain ⟨_, h⟩ := h
  obtain ⟨_, h'⟩ := h'
  exact (Prod.mk.inj (Except.ok.inj (h.symm.trans h'))).1

/-- The names came to be known by resolving the paths: each column has the
stand-ins of its segments, only segments are new, and no name is known twice. -/
structure Introduced (root : Collection) (names names' : Names) (uses : List (String × Column)) :
    Prop where
  grows : names <+: names'
  stands : ∀ use ∈ uses, ∃ segments, Leads root use.1 segments ∧
    List.Forall₂ (StandsFor names') use.2 segments
  new : ∀ name ∈ names', name ∈ names ∨
    ∃ use ∈ uses, ∃ segments, Leads root use.1 segments ∧ name ∈ segments
  nodup : names.Nodup → names'.Nodup

/-- Resolving paths one after the other introduces their segments. -/
theorem introduced_of_resolves {root : Collection} {p p' : Progress Names}
    {uses : List (String × Column)} (h : (dialog root).Resolves p uses p') :
    Introduced root p.scope p'.scope uses := by
  induction h with
  | done h =>
    rw [h]
    exact ⟨List.prefix_rfl, fun _ hu => absurd hu List.not_mem_nil, fun _ hn => .inl hn, id⟩
  | @step p p₁ p₂ p₃ path c property uses hsame hresolve _ ih =>
    obtain ⟨segments, hinside, hnames, _⟩ := resolve_ok hresolve
    have hinterned := interned_nameIndexes segments p₁.scope
    rw [hnames, hsame] at hinterned
    have hleads : Leads root path segments := ⟨property, hinside⟩
    refine ⟨hinterned.grows.trans ih.grows, fun use huse => ?_, fun name hname => ?_,
      fun hnodup => ih.nodup (hinterned.nodup hnodup)⟩
    · rcases List.mem_cons.1 huse with rfl | huse
      · exact ⟨segments, hleads, hinterned.stands.imp fun _ _ h => h.mono ih.grows⟩
      · exact ih.stands use huse
    · rcases ih.new name hname with hname | ⟨use, huse, hsegments⟩
      · rcases hinterned.new name hname with hname | hname
        · exact .inl hname
        · exact .inr ⟨(path, c), List.mem_cons_self, segments, hleads, hname⟩
      · exact .inr ⟨use, List.mem_cons_of_mem _ huse, hsegments⟩

/-- What is related to the elements of a list. -/
theorem exists_of_forall₂ {α β : Type} {R : α → β → Prop} {xs : List α} {ys : List β}
    (h : List.Forall₂ R xs ys) : ∀ y ∈ ys, ∃ x ∈ xs, R x y := by
  induction h with
  | nil => exact fun y hy => absurd hy List.not_mem_nil
  | @cons x y xs ys hxy _ ih =>
    intro z hz
    rcases List.mem_cons.1 hz with rfl | hz
    · exact ⟨x, List.mem_cons_self, hxy⟩
    · obtain ⟨x', hx', hxz⟩ := ih z hz
      exact ⟨x', List.mem_cons_of_mem x hx', hxz⟩

/-- A name has one stand-in. -/
theorem StandsFor.unique {names : Names} (hnodup : names.Nodup) {k k' : Nat} {name : String}
    (h : StandsFor names k name) (h' : StandsFor names k' name) : k = k' := by
  obtain ⟨hpos, hname⟩ := h
  obtain ⟨hpos', hname'⟩ := h'
  obtain ⟨hlt, hget⟩ := List.getElem?_eq_some_iff.1 hname
  obtain ⟨hlt', hget'⟩ := List.getElem?_eq_some_iff.1 hname'
  have hindex : k - 1 = k' - 1 := (hnodup.getElem_inj_iff).1 (hget.trans hget'.symm)
  omega

/-- The known names, the paths and the columns of a run from the start: the
names are the segments that the paths lead to, each once, and each has its
stand-in in some column. -/
theorem names_of_employs {root : Collection} {values : Bindings} {p' : Progress Names}
    {paths : List String} {columns : List Column}
    (h : (dialog root).Employs ⟨values, []⟩ paths columns p') :
    p'.scope.Nodup ∧
      (∀ name, name ∈ p'.scope ↔ ∃ path ∈ paths, ∃ segments, Leads root path segments ∧
        name ∈ segments) ∧
      ∀ k, (∃ c ∈ columns, k ∈ c) ↔ 0 < k ∧ k ≤ p'.scope.length := by
  obtain ⟨uses, hresolves, hpaths, hcolumns⟩ := h
  have hnames := introduced_of_resolves hresolves
  have hnodup : p'.scope.Nodup := hnames.nodup List.nodup_nil
  have hnew : ∀ name ∈ p'.scope,
      ∃ use ∈ uses, ∃ segments, Leads root use.1 segments ∧ name ∈ segments := by
    intro name hname
    rcases hnames.new name hname with hnil | huse
    · exact absurd hnil List.not_mem_nil
    · exact huse
  -- a segment of a use has a stand-in in the column of the use
  have hstand : ∀ use ∈ uses, ∀ segments, Leads root use.1 segments → ∀ name ∈ segments,
      ∃ k ∈ use.2, StandsFor p'.scope k name := by
    intro use huse segments hleads name hname
    obtain ⟨segments', hleads', hstands⟩ := hnames.stands use huse
    obtain rfl := hleads.unique hleads'
    exact exists_of_forall₂ hstands name hname
  refine ⟨hnodup, fun name => ⟨fun hname => ?_, ?_⟩, fun k => ⟨?_, ?_⟩⟩
  · obtain ⟨use, huse, hsegments⟩ := hnew name hname
    exact ⟨use.1, (hpaths _).2 (List.mem_map_of_mem huse), hsegments⟩
  · rintro ⟨path, hpath, segments, hleads, hname⟩
    obtain ⟨use, huse, rfl⟩ := List.mem_map.1 ((hpaths path).1 hpath)
    obtain ⟨k, _, hk⟩ := hstand use huse segments hleads name hname
    exact List.mem_of_getElem? hk.2
  · rintro ⟨c, hc, hk⟩
    obtain ⟨use, huse, rfl⟩ := List.mem_map.1 ((hcolumns c).1 hc)
    obtain ⟨segments, _, hstands⟩ := hnames.stands use huse
    obtain ⟨name, _, hname⟩ := exists_of_forall₂ hstands.flip k hk
    exact ⟨hname.1, StandsFor.le_length hname⟩
  · rintro ⟨hpos, hle⟩
    have hlt : k - 1 < p'.scope.length := by omega
    obtain ⟨use, huse, segments, hleads, hname⟩ := hnew _ (List.getElem_mem hlt)
    obtain ⟨k', hk', hstands⟩ := hstand use huse segments hleads _ hname
    have hsame : k = k' :=
      StandsFor.unique hnodup ⟨hpos, List.getElem?_eq_getElem hlt⟩ hstands
    exact ⟨use.2, (hcolumns _).2 (List.mem_map_of_mem huse), hsame ▸ hk'⟩

end ResourceQuery.KeyValue

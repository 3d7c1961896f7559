import Mathlib.Data.List.Forall2
import ResourceQuery.KeyValue.Request
import ResourceQuery.Proofs.ColumnPath
import ResourceQuery.Proofs.Statement.Build

set_option autoImplicit false

/-!
# Key-value requests: stand-ins of names

A name gets a stand-in when it is first met and keeps it from then on.  So the
stand-ins of a path are the same in all later states, and different names have
different ones.

This is an invariant of one list, that of the names met so far: it has no name
twice, and it only grows at its end.  Positions in it are therefore good for
ever.
-/

namespace ResourceQuery.KeyValue

/-! ## One name -/

/-- The stand-in with this number stands for the name. -/
def StandsFor (names : Names) (k : Nat) (name : String) : Prop :=
  0 < k ∧ names[k - 1]? = some name

/-- A stand-in keeps its name when more names are met. -/
theorem StandsFor.mono {names names' : Names} {k : Nat} {name : String}
    (h : StandsFor names k name) (hgrows : names <+: names') : StandsFor names' k name := by
  obtain ⟨rest, rfl⟩ := hgrows
  obtain ⟨hpos, hname⟩ := h
  obtain ⟨hlt, _⟩ := List.getElem?_eq_some_iff.1 hname
  exact ⟨hpos, by rw [List.getElem?_append_left hlt, hname]⟩

theorem StandsFor.le_length {names : Names} {k : Nat} {name : String}
    (h : StandsFor names k name) : k ≤ names.length := by
  obtain ⟨hlt, _⟩ := List.getElem?_eq_some_iff.1 h.2
  have hpos := h.1
  omega

theorem nameIndex_of_mem {names : Names} {name : String} (h : name ∈ names) :
    nameIndex names name = (names.idxOf name + 1, names) := by
  rw [nameIndex, if_pos (List.contains_iff_mem.2 h)]

theorem nameIndex_of_not_mem {names : Names} {name : String} (h : name ∉ names) :
    nameIndex names name = (names.length + 1, names ++ [name]) := by
  rw [nameIndex, if_neg fun hc => h (List.contains_iff_mem.1 hc)]

theorem prefix_nameIndex (names : Names) (name : String) : names <+: (nameIndex names name).2 := by
  by_cases h : name ∈ names
  · have hsame : (nameIndex names name).2 = names := congrArg Prod.snd (nameIndex_of_mem h)
    exact ⟨[], by rw [List.append_nil, hsame]⟩
  · rw [nameIndex_of_not_mem h]
    exact List.prefix_append _ _

theorem standsFor_nameIndex (names : Names) (name : String) :
    StandsFor (nameIndex names name).2 (nameIndex names name).1 name := by
  by_cases h : name ∈ names
  · rw [nameIndex_of_mem h]
    have hlt : names.idxOf name < names.length := List.idxOf_lt_length_iff.2 h
    exact ⟨Nat.succ_pos _, by
      rw [Nat.add_sub_cancel, List.getElem?_eq_getElem hlt, List.getElem_idxOf hlt]⟩
  · rw [nameIndex_of_not_mem h]
    exact ⟨Nat.succ_pos _, by rw [Nat.add_sub_cancel, List.getElem?_concat_length]⟩

/-- A stand-in is found again in every later state. -/
theorem nameIndex_later {names f : Names} {name : String} (h : (nameIndex names name).2 <+: f) :
    nameIndex f name = ((nameIndex names name).1, f) := by
  obtain ⟨rest, rfl⟩ := h
  by_cases hmem : name ∈ names
  · rw [nameIndex_of_mem hmem, nameIndex_of_mem (List.mem_append_left rest hmem),
      List.idxOf_append, if_pos hmem]
  · have hfound : name ∈ names ++ [name] := List.mem_append_right names (List.mem_singleton_self name)
    have hindex : (names ++ [name]).idxOf name = names.length := by
      rw [List.idxOf_append, if_neg hmem]
      simp
    rw [nameIndex_of_not_mem hmem, nameIndex_of_mem (List.mem_append_left rest hfound),
      List.idxOf_append, if_pos hfound, hindex]

/-! ## Several names -/

/-- The stand-ins were given to the segments: those that were known before keep
theirs, only the segments are new, and no name is met twice. -/
structure Interned (names names' : Names) (segments : List String) (indexes : List Nat) : Prop where
  grows : names <+: names'
  stands : List.Forall₂ (StandsFor names') indexes segments
  new : ∀ name ∈ names', name ∈ names ∨ name ∈ segments
  nodup : names.Nodup → names'.Nodup

theorem nameIndexes_cons (names : Names) (segment : String) (segments : List String) :
    nameIndexes names (segment :: segments) =
      ((nameIndex names segment).1 :: (nameIndexes (nameIndex names segment).2 segments).1,
        (nameIndexes (nameIndex names segment).2 segments).2) := rfl

theorem interned_nameIndexes (segments : List String) : ∀ names : Names,
    Interned names (nameIndexes names segments).2 segments (nameIndexes names segments).1 := by
  induction segments with
  | nil => exact fun names => ⟨List.prefix_rfl, .nil, fun _ h => .inl h, fun h => h⟩
  | cons segment segments ih =>
    intro names
    rw [nameIndexes_cons]
    have hrest := ih (nameIndex names segment).2
    refine ⟨(prefix_nameIndex names segment).trans hrest.grows,
      .cons ((standsFor_nameIndex names segment).mono hrest.grows) hrest.stands, ?_, ?_⟩
    · intro name hname
      rcases hrest.new name hname with hname | hname
      · by_cases hmem : segment ∈ names
        · rw [nameIndex_of_mem hmem] at hname
          exact .inl hname
        · rw [nameIndex_of_not_mem hmem] at hname
          rcases List.mem_append.1 hname with hname | hname
          · exact .inl hname
          · exact .inr (List.mem_singleton.1 hname ▸ List.mem_cons_self)
      · exact .inr (List.mem_cons_of_mem segment hname)
    · intro hnodup
      refine hrest.nodup ?_
      by_cases hmem : segment ∈ names
      · rwa [nameIndex_of_mem hmem]
      · rw [nameIndex_of_not_mem hmem]
        refine List.nodup_append.2 ⟨hnodup, List.pairwise_singleton _ segment, ?_⟩
        rintro name hname _ hlast rfl
        exact hmem (List.mem_singleton.1 hlast ▸ hname)

/-- The stand-ins of a path are found again in every later state. -/
theorem nameIndexes_later (segments : List String) : ∀ {names f : Names},
    (nameIndexes names segments).2 <+: f →
      nameIndexes f segments = ((nameIndexes names segments).1, f) := by
  induction segments with
  | nil => exact fun _ => rfl
  | cons segment segments ih =>
    intro names f h
    rw [nameIndexes_cons] at h
    have hfirst : (nameIndex names segment).2 <+: f :=
      (interned_nameIndexes segments _).grows.trans h
    rw [nameIndexes_cons, nameIndexes_cons, nameIndex_later hfirst, ih h]

/-! ## Paths -/

/-- A path inside a collection has segments. -/
theorem ne_nil_of_inside {backend : String} {root : Collection} {path : String}
    {segments : List String} {property : Property}
    (h : ColumnPath.inside backend root path = .ok (segments, property)) : segments ≠ [] := by
  obtain ⟨_, _, _, _, _, _, rfl, _⟩ := ColumnPath.inside_ok h
  exact List.cons_ne_nil _ _

/-- A path is looked up, and its segments get stand-ins. -/
theorem resolve_ok {root : Collection} {path : String} {p p' : Progress Names} {c : Column}
    {property : Property} (h : resolve root path p = .ok ((c, property), p')) :
    ∃ segments, ColumnPath.inside backend root path = .ok (segments, property) ∧
      nameIndexes p.scope segments = (c, p'.scope) ∧ p'.values = p.values := by
  unfold resolve at h
  obtain ⟨⟨segments, found⟩, hinside, h⟩ := Build.lookup_bind_ok_iff.1 h
  obtain ⟨q, q', hget, h⟩ := Build.bind_ok_iff.1 h
  cases hget
  obtain ⟨_, q'', hset, h⟩ := Build.bind_ok_iff.1 h
  cases hset
  obtain ⟨hfound, rfl⟩ := Build.pure_ok_iff.1 h
  cases hfound
  exact ⟨segments, hinside, rfl, rfl⟩

end ResourceQuery.KeyValue

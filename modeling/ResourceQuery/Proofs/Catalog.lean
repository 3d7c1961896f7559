import ResourceQuery.Catalog
import ResourceQuery.Proofs.Outcome

set_option autoImplicit false

/-!
# Catalogs: properties by their names

What a look-up in a collection can find: one of its own properties, by a name
that has a dot only where the property has one.

Paths are divided at dots, so it matters for many properties whether a name can
have one.
-/

namespace ResourceQuery

namespace Text

theorem toLower_eq_dot_iff {c : Char} : c.toLower = '.' ↔ c = '.' := by
  constructor
  · intro h
    by_cases hupper : 'A'.val ≤ c.val ∧ c.val ≤ 'Z'.val
    · -- letters come after the dot, in lower case too
      have hlower : c.toLower.val = c.val + 32 := congrArg Char.val (dif_pos hupper)
      have hsum : (c.val + 32).toNat = 46 := by
        rw [← hlower, h]
        rfl
      have hfirst : 65 ≤ c.val.toNat := UInt32.le_iff_toNat_le.1 hupper.1
      have hlast : c.val.toNat ≤ 90 := UInt32.le_iff_toNat_le.1 hupper.2
      have hstep : (32 : UInt32).toNat = 32 := rfl
      rw [UInt32.toNat_add] at hsum
      omega
    · have hsame : c.toLower = c := dif_neg hupper
      exact hsame.symm.trans h
  · rintro rfl
    decide

/-- Words that are the same but for their case have dots at the same places. -/
theorem dot_mem_of_sameWord {a b : String} (h : sameWord a b = true) (hdot : '.' ∈ b.toList) :
    '.' ∈ a.toList := by
  have hchars : a.toList.map Char.toLower = b.toList.map Char.toLower := by
    simpa [lower] using congrArg String.toList ((sameWord_iff a b).1 h)
  have hmem : '.' ∈ a.toList.map Char.toLower := by
    rw [hchars]
    exact List.mem_map.2 ⟨'.', hdot, by decide⟩
  obtain ⟨c, hc, hlower⟩ := List.mem_map.1 hmem
  exact toLower_eq_dot_iff.1 hlower ▸ hc

end Text

namespace Collection

variable {c : Collection} {p : Property} {name : String}

/-- A look-up by a name gives a property, or the fault that there is none. -/
theorem property_ok_iff : c.property name = .ok p ↔ c.property? name = some p := by
  unfold property
  cases c.property? name with
  | none => exact iff_of_false (fun h => by cases h) (fun h => by cases h)
  | some found => rw [Except.ok.injEq, Option.some.injEq]

theorem mem_of_property? (h : c.property? name = some p) : p ∈ c.properties := by
  rcases Option.or_eq_some_iff.1 h with hname | ⟨_, hcolumn⟩
  · exact List.mem_of_find?_eq_some hname
  · exact List.mem_of_find?_eq_some hcolumn

/-- A property is found by its name or by its column. -/
theorem sameWord_of_property? (h : c.property? name = some p) :
    Text.sameWord p.name name = true ∨ Text.sameWord p.columnName name = true := by
  rcases Option.or_eq_some_iff.1 h with hname | ⟨_, hcolumn⟩
  · exact .inl (List.find?_some (p := fun p : Property => Text.sameWord p.name name) hname)
  · exact .inr (List.find?_some (p := fun p : Property => Text.sameWord p.columnName name) hcolumn)

/-- Where neither names nor columns have dots, nothing is found by a name with a dot. -/
theorem dot_not_mem_of_property?
    (hdots : ∀ p ∈ c.properties, '.' ∉ p.name.toList ∧ '.' ∉ p.columnName.toList)
    (h : c.property? name = some p) : '.' ∉ name.toList := by
  intro hdot
  obtain ⟨hname, hcolumn⟩ := hdots p (mem_of_property? h)
  rcases sameWord_of_property? h with hsame | hsame
  · exact hname (Text.dot_mem_of_sameWord hsame hdot)
  · exact hcolumn (Text.dot_mem_of_sameWord hsame hdot)

/-! ## Indexes -/

/-- The properties of an index are among those of the collection. -/
theorem mem_of_keyProperties {i : Index} {ps : List Property} (h : c.keyProperties i = .ok ps) :
    ∀ p ∈ ps, p ∈ c.properties := by
  unfold keyProperties at h
  split at h
  · cases h
  · refine forall_mem_of_mapM (fun column p hp => ?_) h
    unfold keyProperty at hp
    cases hfound : c.property? column with
    | none =>
      rw [hfound] at hp
      cases hp
    | some found =>
      rw [hfound] at hp
      cases hp
      exact mem_of_property? hfound

/-- An index has properties. -/
theorem keyProperties_ne_nil {i : Index} {ps : List Property} (h : c.keyProperties i = .ok ps) :
    ps ≠ [] := by
  rintro rfl
  unfold keyProperties at h
  split at h
  · cases h
  · next hcolumns =>
    cases hall : i.columns with
    | nil => exact hcolumns hall
    | cons column columns =>
      rw [hall] at h
      obtain ⟨_, _, _, _, hcons⟩ := mapM_cons_ok_iff.1 h
      cases hcons

end Collection
end ResourceQuery

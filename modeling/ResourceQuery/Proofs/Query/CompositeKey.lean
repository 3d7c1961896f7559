import ResourceQuery.Proofs.Outcome
import ResourceQuery.Query.CompositeKey

set_option autoImplicit false

/-!
# Query: composite keys

Decoding a key undoes encoding: the components are read one after the other up
to the `~` between them, and within a component the characters that are reserved
are escaped.  What any key is decoded to is encoded to a key that is decoded to
the same.

Reading goes character by character, and encoding does so too; so the proofs are
inductions over the characters of a component with one lemma for each kind of
character.
-/

namespace ResourceQuery.CompositeKey

/-! ## One character -/

theorem components?_escape (c : Char) (cs : List Char) :
    components? ('\\' :: c :: cs) = (components? cs).map (extend c) := by
  rw [components?]

theorem components?_separator (cs : List Char) :
    components? ('~' :: cs) = (components? cs).map ([] :: ·) := by
  rw [components?]

/-- A character that neither is nor starts an escape, and divides nothing. -/
theorem components?_plain {c : Char} (hback : c ≠ '\\') (hstar : c ≠ '*') (hdivider : c ≠ '~')
    (cs : List Char) : components? (c :: cs) = (components? cs).map (extend c) := by
  rw [components?]
  · exact fun h => hback h
  · exact fun a b d e rest h _ => hstar h
  · exact fun h => hdivider h

/-! ## Components -/

theorem encodePart_cons (c : Char) (cs : List Char) :
    encodePart (c :: cs) = (if isReserved c then ['\\', c] else [c]) ++ encodePart cs :=
  List.flatMap_cons

/-- A component is read in front of what follows it. -/
theorem components?_encodePart (cs : List Char) {rest part : List Char} {parts : List (List Char)}
    (h : components? rest = some (part :: parts)) :
    components? (encodePart cs ++ rest) = some ((cs ++ part) :: parts) := by
  induction cs with
  | nil => exact h
  | cons c cs ih =>
    rw [encodePart_cons, List.append_assoc]
    cases hreserved : isReserved c with
    | true =>
      rw [if_pos rfl, List.cons_append, List.singleton_append, components?_escape, ih]
      rfl
    | false =>
      simp only [isReserved, Bool.or_eq_false_iff, beq_eq_false_iff_ne] at hreserved
      obtain ⟨⟨⟨hdivider, _⟩, hback⟩, hstar⟩ := hreserved
      rw [if_neg (by decide), List.singleton_append, components?_plain hback hstar hdivider, ih]
      rfl

/-- The components of the key that they are encoded to. -/
theorem components?_encodeChars {parts : List (List Char)} (hne : parts ≠ []) :
    components? (encodeChars parts) = some parts := by
  induction parts with
  | nil => exact absurd rfl hne
  | cons part parts ih =>
    cases parts with
    | nil =>
      have hend : components? [] = some [[]] := rfl
      have hlast := components?_encodePart part hend
      rwa [List.append_nil, List.append_nil] at hlast
    | cons next parts =>
      have hrest : components? ('~' :: encodeChars (next :: parts)) =
          some ([] :: next :: parts) := by
        rw [components?_separator, ih (List.cons_ne_nil next parts)]
        rfl
      have hfirst := components?_encodePart part hrest
      rwa [List.append_nil] at hfirst

/-- A key with components that are not empty, for an index with as many columns. -/
theorem decode_of_components {key : String} {parts : List String}
    (h : components? key.toList = some (parts.map String.toList))
    (hparts : ∀ part ∈ parts, part ≠ "") (index : String) :
    decode index key parts.length = .ok parts := by
  have hsome : ((parts.map String.toList).any List.isEmpty) = false := by
    rw [List.any_map, List.any_eq_false]
    intro part hpart hempty
    refine hparts part hpart (String.toList_inj.1 ?_)
    exact List.isEmpty_iff.1 hempty
  rw [decode, h]
  dsimp only
  rw [if_neg (by rw [List.length_map]; exact fun h => h rfl), hsome, if_neg (by decide),
    List.map_map]
  refine congrArg Except.ok ((List.map_congr_left fun part _ => ?_).trans (List.map_id parts))
  exact String.ofList_toList

/-! ## Keys -/

/-- There is a component in every key. -/
theorem ne_nil_of_components? {cs : List Char} {parts : List (List Char)}
    (h : components? cs = some parts) : parts ≠ [] := by
  have hextend : ∀ (c : Char) (ps : List (List Char)), extend c ps ≠ [] := by
    intro c ps
    cases ps with
    | nil => exact List.cons_ne_nil _ _
    | cons part ps => exact List.cons_ne_nil _ _
  rintro rfl
  unfold components? at h
  split at h
  · cases h
  · split at h
    · cases h
    · obtain ⟨ps, _, hnil⟩ := Option.map_eq_some_iff.1 h
      exact hextend _ ps hnil
  · split at h
    · obtain ⟨ps, _, hnil⟩ := Option.map_eq_some_iff.1 h
      exact hextend _ ps hnil
    · obtain ⟨ps, _, hnil⟩ := Option.map_eq_some_iff.1 h
      exact hextend _ ps hnil
  · obtain ⟨ps, _, hnil⟩ := Option.map_eq_some_iff.1 h
    exact List.cons_ne_nil _ _ hnil
  · obtain ⟨ps, _, hnil⟩ := Option.map_eq_some_iff.1 h
    exact hextend _ ps hnil

/-- A key is decoded to as many components as the index has columns, none of
them empty. -/
theorem decode_ok_iff {index key : String} {arity : Nat} {parts : List String} :
    decode index key arity = .ok parts ↔
      components? key.toList = some (parts.map String.toList) ∧ parts.length = arity ∧
        ∀ part ∈ parts, part ≠ "" := by
  constructor
  · intro h
    unfold decode at h
    cases hcomponents : components? key.toList with
    | none =>
      rw [hcomponents] at h
      cases h
    | some ps =>
      rw [hcomponents] at h
      dsimp only at h
      by_cases harity : ps.length = arity
      · rw [if_neg fun hne => hne harity] at h
        cases hempty : ps.any List.isEmpty with
        | true =>
          rw [hempty, if_pos rfl] at h
          cases h
        | false =>
          rw [hempty, if_neg Bool.false_ne_true] at h
          obtain rfl := Except.ok.inj h
          refine ⟨?_, ?_, ?_⟩
          · have hread : ps.map (String.toList ∘ String.ofList) = ps :=
              (List.map_congr_left fun cs _ => String.toList_ofList).trans (List.map_id ps)
            rw [List.map_map, hread]
          · rw [List.length_map, harity]
          · intro part hmem hblank
            obtain ⟨cs, hcs, rfl⟩ := List.mem_map.1 hmem
            have hchars := congrArg String.toList hblank
            rw [String.toList_ofList] at hchars
            exact List.any_eq_false.1 hempty cs hcs (List.isEmpty_iff.2 hchars)
      · rw [if_pos harity] at h
        cases h
  · rintro ⟨hcomponents, rfl, hparts⟩
    exact decode_of_components hcomponents hparts index

theorem components?_encode {parts : List String} (hne : parts ≠ []) :
    components? (encode parts).toList = some (parts.map String.toList) := by
  rw [encode, String.toList_ofList]
  exact components?_encodeChars fun hnil => hne (List.map_eq_nil_iff.1 hnil)

/-- Keys with another number of components are refused with that number. -/
theorem decode_of_length_ne {key : String} {parts : List (List Char)} {arity : Nat}
    (h : components? key.toList = some parts) (hlength : parts.length ≠ arity) (index : String) :
    decode index key arity = .error (.grammar (.keyArity index key arity parts.length)) := by
  rw [decode, h]
  dsimp only
  rw [if_pos hlength]

/-- Encoding and decoding undo each other: components are encoded to a key that
is decoded to them, for an index with as many columns and for no other, and what
a key is decoded to, with whatever escapes, is encoded to a key that is decoded
to the same. -/
theorem decode_encode_decode (index : String) :
    (∀ parts : List String, parts ≠ [] → (∀ part ∈ parts, part ≠ "") →
      decode index (encode parts) parts.length = .ok parts ∧
      ∀ arity, arity ≠ parts.length → decode index (encode parts) arity =
        .error (.grammar (.keyArity index (encode parts) arity parts.length))) ∧
    ∀ (key : String) (arity : Nat) (parts : List String), decode index key arity = .ok parts →
      decode index (encode parts) arity = .ok parts := by
  constructor
  · intro parts hne hparts
    have hcomponents := components?_encode hne
    refine ⟨decode_of_components hcomponents hparts index, fun arity harity => ?_⟩
    have hlength : (parts.map String.toList).length ≠ arity := by
      rw [List.length_map]
      exact harity.symm
    rw [decode_of_length_ne hcomponents hlength, List.length_map]
  · intro key arity parts h
    obtain ⟨hcomponents, hlength, hparts⟩ := decode_ok_iff.1 h
    have hne : parts ≠ [] := by
      rintro rfl
      exact ne_nil_of_components? hcomponents rfl
    exact decode_ok_iff.2 ⟨components?_encode hne, hlength, hparts⟩

/-- Components with every reserved character and the look of an escape. -/
def escapedParts : List String := ["a~b,", "\\*007E", "*"]

theorem decode_encode_decode_of_escapes :
    encode escapedParts = "a\\~b\\,~\\\\\\*007E~\\*" ∧
    decode "byId" (encode escapedParts) 3 = .ok escapedParts ∧
    decode "byId" (encode escapedParts) 2 =
      .error (.grammar (.keyArity "byId" (encode escapedParts) 2 3)) ∧
    decode "byId" "*002A1*007E~*" 2 = .ok ["*1~", "*"] ∧
    decode "byId" (encode ["*1~", "*"]) 2 = .ok ["*1~", "*"] := by
  obtain ⟨hparts, hkeys⟩ := decode_encode_decode "byId"
  have hcomponents := hparts escapedParts (by decide) (by decide)
  have hkey : decode "byId" "*002A1*007E~*" 2 = .ok ["*1~", "*"] :=
    eq_ok_of_toOption (by decide +kernel)
  exact ⟨by decide +kernel, hcomponents.1, hcomponents.2 2 (by decide), hkey, hkeys _ _ _ hkey⟩

end ResourceQuery.CompositeKey

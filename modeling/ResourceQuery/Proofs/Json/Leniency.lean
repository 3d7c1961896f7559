import ResourceQuery.Json.Record

set_option autoImplicit false

/-!
# JSON: what the reader of a record passes over

A `Shape` says which objects of a value are records, which fields these have and
what a field is taken for when it is left out.  An edit adds a field that its
record does not have, or leaves out one that has its standard value, in any
record of the value.  A reader that is put together from the fields of records
reads the same before and after.

The readers are built from a few combinators, and one lemma for each of them
says that it does not notice an edit.  Readers of records are then covered by
their construction.
-/

namespace ResourceQuery.Json

/-! ## Shapes and edits -/

/-- What the parts of a value are: plain values, lists, and records with the
names of their fields, the shape of each field and its standard value, if it has
one. -/
inductive Shape where
  | plain
  | list (item : Shape)
  | record (fields : List (String × Shape × Option Json))

/-- One edit of a value: somewhere in it a field is added that its record does
not have, or a field with its standard value is left out. -/
inductive Edit : Shape → Json → Json → Prop where
  | item {shape : Shape} {json json' : Json} (before after : List Json)
      (h : Edit shape json json') :
      Edit (.list shape) (.array (before ++ json :: after)) (.array (before ++ json' :: after))
  | field {fields : List (String × Shape × Option Json)} {name : String} {shape : Shape}
      {standard : Option Json} {json json' : Json} (before after : List (String × Json))
      (hname : fields.lookup name = some (shape, standard)) (h : Edit shape json json') :
      Edit (.record fields) (.object (before ++ (name, json) :: after))
        (.object (before ++ (name, json') :: after))
  | add {fields : List (String × Shape × Option Json)} {name : String}
      (before after : List (String × Json)) (hname : fields.lookup name = none) (json : Json) :
      Edit (.record fields) (.object (before ++ after)) (.object (before ++ (name, json) :: after))
  | drop {fields : List (String × Shape × Option Json)} {name : String} {shape : Shape}
      {standard : Json} (before after : List (String × Json))
      (hname : fields.lookup name = some (shape, some standard)) :
      Edit (.record fields) (.object (before ++ (name, standard) :: after))
        (.object (before ++ after))

/-- Any number of edits. -/
inductive Edits (shape : Shape) (json : Json) : Json → Prop where
  | refl : Edits shape json json
  | tail {json' json'' : Json} (h : Edits shape json json') (hedit : Edit shape json' json'') :
      Edits shape json json''

/-- Every object of the value is a record of the shape with no other fields, so
that there is no object which edits do not reach. -/
inductive Fits : Shape → Json → Prop where
  | null (shape : Shape) : Fits shape .null
  | bool (value : Bool) : Fits .plain (.bool value)
  | whole (value : Int) : Fits .plain (.whole value)
  | text (value : String) : Fits .plain (.text value)
  | list {shape : Shape} {items : List Json} (h : ∀ json ∈ items, Fits shape json) :
      Fits (.list shape) (.array items)
  | nil (fields : List (String × Shape × Option Json)) : Fits (.record fields) (.object [])
  | cons {fields : List (String × Shape × Option Json)} {name : String} {shape : Shape}
      {standard : Option Json} {json : Json} {given : List (String × Json)}
      (hname : fields.lookup name = some (shape, standard)) (h : Fits shape json)
      (hrest : Fits (.record fields) (.object given)) :
      Fits (.record fields) (.object ((name, json) :: given))

theorem fits_ofText? (value : Option String) : Fits .plain (ofText? value) := by
  cases value with
  | none => exact .null _
  | some value => exact .text value

theorem fits_map {α : Type} {shape : Shape} {encode : α → Json} (h : ∀ a, Fits shape (encode a))
    (as : List α) : Fits (.list shape) (.array (as.map encode)) := by
  refine .list fun json hjson => ?_
  obtain ⟨a, _, rfl⟩ := List.mem_map.1 hjson
  exact h a

/-! ## The fields of an edited record -/

/-- No field is given twice. -/
theorem givenOnce_iff {names : List String} {given : List (String × Json)} :
    givenOnce names given = true ↔ ∀ name ∈ names, (given.map Prod.fst).count name ≤ 1 := by
  have hcount : ∀ name, (given.filter fun f => f.1 == name).length =
      (given.map Prod.fst).count name := by
    intro name
    rw [List.count_eq_length_filter, List.filter_map, List.length_map]
    rfl
  simp only [givenOnce, List.all_eq_true, decide_eq_true_eq, hcount]

section Fields

variable {name other : String} {before after : List (String × Json)}

/-- The other fields do not notice a field. -/
theorem get?_other (hne : other ≠ name) (json : Json) :
    (Record.named (before ++ (name, json) :: after)).get? other =
      (Record.named (before ++ after)).get? other := by
  simp [Record.get?, List.find?_append, Ne.symm hne]

/-- A field that is given once stands neither before nor after itself. -/
theorem not_mem_of_count_le {json : Json}
    (honce : ((before ++ (name, json) :: after).map Prod.fst).count name ≤ 1) :
    name ∉ (before ++ after).map Prod.fst := by
  rw [List.map_append, List.map_cons, List.count_append, List.count_cons_self] at honce
  rw [List.map_append, List.mem_append, not_or, ← List.count_eq_zero, ← List.count_eq_zero]
  omega

/-- A field that was left out is not found. -/
theorem get?_missing (h : name ∉ (before ++ after).map Prod.fst) :
    (Record.named (before ++ after)).get? name = none := by
  rw [Record.get?, Option.map_eq_none_iff, List.find?_eq_none]
  intro f hf hname
  exact h (List.mem_map.2 ⟨f, hf, eq_of_beq hname⟩)

theorem get?_given (h : name ∉ (before ++ after).map Prod.fst) (json : Json) :
    (Record.named (before ++ (name, json) :: after)).get? name = some json := by
  have hbefore : before.find? (fun f => f.1 == name) = none := by
    rw [List.find?_eq_none]
    intro f hf hname
    exact h (List.mem_map.2 ⟨f, List.mem_append_left after hf, eq_of_beq hname⟩)
  simp [Record.get?, List.find?_append, hbefore]

end Fields

/-- What an edit does to the fields that a record has: a field is as it was, or
is edited itself, or had its standard value and is left out. -/
def Record.Varies (fields : List (String × Shape × Option Json)) (r r' : Record) : Prop :=
  ∀ name shape standard, fields.lookup name = some (shape, standard) →
    r'.get? name = r.get? name ∨
    (∃ json json', r.get? name = some json ∧ r'.get? name = some json' ∧ Edit shape json json') ∨
    (r.get? name = standard ∧ r.get? name ≠ none ∧ r'.get? name = none)

theorem ne_of_lookup_eq_none {fields : List (String × Shape × Option Json)} {name other : String}
    {field : Shape × Option Json} (hnone : fields.lookup name = none)
    (hsome : fields.lookup other = some field) : other ≠ name := by
  rintro rfl
  rw [hnone] at hsome
  cases hsome

theorem mem_names_of_lookup {fields : List (String × Shape × Option Json)} {name : String}
    {field : Shape × Option Json} (h : fields.lookup name = some field) :
    name ∈ fields.map Prod.fst := by
  obtain ⟨l₁, l₂, rfl, _⟩ := List.lookup_eq_some_iff.1 h
  simp

theorem not_mem_names_of_lookup {fields : List (String × Shape × Option Json)} {name : String}
    (h : fields.lookup name = none) : name ∉ fields.map Prod.fst := by
  intro hmem
  obtain ⟨f, hf, rfl⟩ := List.mem_map.1 hmem
  have hne := List.lookup_eq_none_iff.1 h f hf
  simp at hne

/-- An edited record is a record, and its fields are those of the record but for the edit. -/
theorem record?_of_edit {fields : List (String × Shape × Option Json)} {json json' : Json}
    (hedit : Edit (.record fields) json json') {r : Record}
    (hrecord : json.record? (fields.map Prod.fst) = some r) :
    ∃ r', json'.record? (fields.map Prod.fst) = some r' ∧ r.Varies fields r' := by
  -- an object is a record if no field is given twice, which is what each edit has to keep
  have hobject : ∀ {given : List (String × Json)},
      Json.record? (fields.map Prod.fst) (.object given) = some r →
        (∀ name ∈ fields.map Prod.fst, (given.map Prod.fst).count name ≤ 1) ∧ r = .named given := by
    intro given h
    rw [record?] at h
    split at h
    · next honce => cases h; exact ⟨givenOnce_iff.1 honce, rfl⟩
    · cases h
  have hgiven : ∀ {given : List (String × Json)},
      (∀ name ∈ fields.map Prod.fst, (given.map Prod.fst).count name ≤ 1) →
        Json.record? (fields.map Prod.fst) (.object given) = some (.named given) := by
    intro given h
    rw [record?, if_pos (givenOnce_iff.2 h)]
  cases hedit with
  | @field _ name shape standard json json' before after hname h =>
    obtain ⟨honce, rfl⟩ := hobject hrecord
    have hnot := not_mem_of_count_le (honce name (mem_names_of_lookup hname))
    refine ⟨_, hgiven (by simpa using honce), fun other shape' standard' hother => ?_⟩
    by_cases hsame : other = name
    · subst hsame
      rw [hname] at hother
      cases hother
      exact .inr (.inl ⟨json, json', get?_given hnot json, get?_given hnot json', h⟩)
    · exact .inl (by rw [get?_other hsame, get?_other hsame])
  | @add _ name before after hname json =>
    obtain ⟨honce, rfl⟩ := hobject hrecord
    refine ⟨_, hgiven fun other hother => ?_, fun other shape standard hother => ?_⟩
    · have hne : name ≠ other := by
        rintro rfl
        exact not_mem_names_of_lookup hname hother
      have hcount := honce other hother
      rw [List.map_append, List.count_append] at hcount
      rw [List.map_append, List.map_cons, List.count_append, List.count_cons_of_ne hne]
      exact hcount
    · exact .inl (get?_other (ne_of_lookup_eq_none hname hother) json)
  | @drop _ name shape standard before after hname =>
    obtain ⟨honce, rfl⟩ := hobject hrecord
    have hnot := not_mem_of_count_le (honce name (mem_names_of_lookup hname))
    refine ⟨_, hgiven fun other hother => ?_, fun other shape' standard' hother => ?_⟩
    · have hcount := honce other hother
      rw [List.map_append, List.map_cons, List.count_append, List.count_cons] at hcount
      rw [List.map_append, List.count_append]
      omega
    · by_cases hsame : other = name
      · subst hsame
        rw [hname] at hother
        cases hother
        refine .inr (.inr ⟨get?_given hnot standard, ?_, get?_missing hnot⟩)
        rw [get?_given hnot standard]
        simp
      · exact .inl (get?_other hsame standard).symm

/-! ## Readers that edits do not matter to -/

/-- An edit does not change what is read. -/
def Keeps {α : Type} (shape : Shape) (decode : Json → Option α) : Prop :=
  ∀ json json' a, Edit shape json json' → decode json = some a → decode json' = some a

/-- An edit does not change what is read from the fields. -/
def Record.Keeps {α : Type} (fields : List (String × Shape × Option Json))
    (read : Record → Option α) : Prop :=
  ∀ r r' a, r.Varies fields r' → read r = some a → read r' = some a

namespace Record.Keeps

variable {α β : Type} {fields : List (String × Shape × Option Json)}

theorem pure (a : α) : Record.Keeps fields fun _ => some a := fun _ _ _ _ h => h

theorem bind {read : Record → Option α} {next : α → Record → Option β}
    (hread : Record.Keeps fields read) (hnext : ∀ a, Record.Keeps fields (next a)) :
    Record.Keeps fields fun r => read r >>= fun a => next a r := by
  intro r r' b hvaries h
  obtain ⟨a, ha, hb⟩ := Option.bind_eq_some_iff.1 h
  exact Option.bind_eq_some_iff.2 ⟨a, hread r r' a hvaries ha, hnext a r r' b hvaries hb⟩

/-- A field that has to be given. -/
theorem required {name : String} {shape : Shape} (hname : fields.lookup name = some (shape, none))
    {decode : Json → Option α} (hdecode : Json.Keeps shape decode) :
    Record.Keeps fields fun r => r.required name decode := by
  intro r r' a hvaries h
  obtain ⟨json, hjson, ha⟩ := Option.bind_eq_some_iff.1 h
  refine Option.bind_eq_some_iff.2 ?_
  rcases hvaries name shape none hname with
    hsame | ⟨_, json', hold, hnew, hedit⟩ | ⟨hnone, hsome, _⟩
  · exact ⟨json, by rw [hsame, hjson], ha⟩
  · rw [hjson] at hold
    cases hold
    exact ⟨json', hnew, hdecode json json' a hedit ha⟩
  · exact absurd hnone hsome

/-- A field that is taken for its standard value when it is left out. -/
theorem optional {name : String} {shape : Shape} {standard : Json}
    (hname : fields.lookup name = some (shape, some standard)) {value : α}
    {decode : Json → Option α} (hdecode : Json.Keeps shape decode)
    (hstandard : decode standard = some value) :
    Record.Keeps fields fun r => r.optional name value decode := by
  intro r r' a hvaries h
  dsimp only [Record.optional] at h ⊢
  rcases hvaries name shape (some standard) hname with
    hsame | ⟨json, json', hold, hnew, hedit⟩ | ⟨hold, _, hnew⟩
  · rw [hsame]
    exact h
  · rw [hold] at h
    rw [hnew]
    exact hdecode json json' a hedit h
  · rw [hold] at h
    rw [hnew]
    exact hstandard.symm.trans h

end Record.Keeps

namespace Keeps

variable {α : Type}

theorem plain (decode : Json → Option α) : Keeps .plain decode := by
  intro json json' a hedit
  cases hedit

/-- A record. -/
theorem record {fields : List (String × Shape × Option Json)} {read : Record → Option α}
    (hread : Record.Keeps fields read) :
    Keeps (.record fields) fun json => json.record? (fields.map Prod.fst) >>= read := by
  intro json json' a hedit h
  obtain ⟨r, hrecord, ha⟩ := Option.bind_eq_some_iff.1 h
  obtain ⟨r', hrecord', hvaries⟩ := record?_of_edit hedit hrecord
  exact Option.bind_eq_some_iff.2 ⟨r', hrecord', hread r r' a hvaries ha⟩

/-- A list, item by item. -/
theorem list {shape : Shape} {decode : Json → Option α} (h : Keeps shape decode) :
    Keeps (.list shape) (list? decode) := by
  intro json json' as hedit has
  cases hedit with
  | item before after hedit =>
    rw [list?, List.mapM_append, List.mapM_cons] at has ⊢
    obtain ⟨front, hfront, hrest⟩ := Option.bind_eq_some_iff.1 has
    obtain ⟨back, hback, has⟩ := Option.bind_eq_some_iff.1 hrest
    obtain ⟨a, ha, hback⟩ := Option.bind_eq_some_iff.1 hback
    rw [hfront, h _ _ a hedit ha]
    exact Option.bind_eq_some_iff.2 ⟨front, rfl, Option.bind_eq_some_iff.2 ⟨back, hback, has⟩⟩

/-- A value or `null`; no edit makes the one of the other. -/
theorem nullable {shape : Shape} {decode : Json → Option α} (h : Keeps shape decode) :
    Keeps shape (nullable? decode) := by
  intro json json' a hedit ha
  have hsome : ∀ {json : Json}, json ≠ .null → nullable? decode json = (decode json).map some := by
    intro json hne
    cases json <;> first | rfl | exact absurd rfl hne
  have hne : json ≠ .null ∧ json' ≠ .null := by cases hedit <;> simp
  rw [hsome hne.1] at ha
  rw [hsome hne.2]
  obtain ⟨b, hb, rfl⟩ := Option.map_eq_some_iff.1 ha
  exact Option.map_eq_some_iff.2 ⟨b, h json json' b hedit hb, rfl⟩

end Keeps

/-- Any number of edits does not change what is read. -/
theorem Keeps.edits {α : Type} {shape : Shape} {decode : Json → Option α} (h : Keeps shape decode)
    {json json' : Json} (hedits : Edits shape json json') {a : α} (ha : decode json = some a) :
    decode json' = some a := by
  induction hedits with
  | refl => exact ha
  | tail _ hedit ih => exact h _ _ a hedit ih

end ResourceQuery.Json

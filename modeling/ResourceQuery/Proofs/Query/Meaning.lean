import ResourceQuery.Query.Condition
import ResourceQuery.Proofs.Term.Induction

set_option autoImplicit false

/-!
# Query: what filters mean

A filter is built with `and`, `or`, `not` and `if` from atoms, whose arguments
are leaves. A valuation says which comparisons of a column with one value hold,
and which of the other atoms.  It extends to filters: `in`, and `eq` with
several values, hold when the comparison with one of the values does; `_key`
holds when, for one of its keys, every column of the index has the value that
the key gives it.
-/

namespace ResourceQuery

/-! ## Words with a meaning of their own -/

/-- The words of a filter that are more than names of atoms. -/
inductive Role where
  | all
  | any
  | negation
  | choice
  | key
  | equation
  | membership
  deriving DecidableEq, Repr

namespace Role

/-- The word. -/
def word : Role → String
  | all => "and"
  | any => "or"
  | negation => "not"
  | choice => "if"
  | key => "_key"
  | equation => "eq"
  | membership => "in"

/-- What a word in lower case is. -/
def ofWord? : String → Option Role
  | "and" => some all
  | "or" => some any
  | "not" => some negation
  | "if" => some choice
  | "_key" => some key
  | "eq" => some equation
  | "in" => some membership
  | _ => none

/-- The word connects conditions. -/
def isConnective : Role → Bool
  | all | any | negation | choice => true
  | key | equation | membership => false

theorem ofWord?_eq_some_iff {w : String} {r : Role} : ofWord? w = some r ↔ w = r.word := by
  constructor
  · intro h
    unfold ofWord? at h
    split at h <;> cases h <;> rfl
  · rintro rfl
    cases r <;> rfl

theorem lower_word (r : Role) : Text.lower r.word = r.word := by
  cases r <;> decide

end Role

namespace Term

/-- What the word of a term is; a quoted word is no word. -/
def role (t : Term) : Option Role :=
  if t.isQuoted then none else Role.ofWord? (Text.lower t.token)

theorem hasToken_word_iff {t : Term} {r : Role} : t.hasToken r.word = true ↔ t.role = some r := by
  unfold hasToken role
  cases t.isQuoted with
  | true => simp
  | false => simp [Text.sameWord_iff, Role.lower_word, Role.ofWord?_eq_some_iff]

theorem role_call (r : Role) (ts : List Term) : (call r.word ts).role = some r := by
  refine hasToken_word_iff.1 ?_
  simp [hasToken, call, isQuoted]

theorem quote_of_role {t : Term} {r : Role} (h : t.role = some r) : t.quote = none := by
  unfold role isQuoted at h
  cases hquote : t.quote with
  | none => rfl
  | some q => rw [hquote] at h; cases h

/-- The word of a term that connects conditions. -/
def connective? (t : Term) : Option Role := t.role.filter Role.isConnective

/-- The term connects conditions. -/
def isConnective (t : Term) : Bool := t.connective?.isSome

theorem isConnective_of_role {t : Term} {r : Role} (h : t.role = some r) :
    t.isConnective = r.isConnective := by
  unfold isConnective connective?
  rw [h, Option.filter]
  cases r.isConnective <;> rfl

/-- The term is a condition: connectives, any number of arguments to each, over
atoms whose arguments are leaves. -/
def isFilter : Term → Bool := fold fun t below =>
  if t.isConnective then below.all id else t.children.all isLeaf

theorem isFilter_eq (t : Term) :
    t.isFilter = if t.isConnective then t.children.all isFilter else t.children.all isLeaf := by
  rw [isFilter, fold_eq, List.all_map]
  rfl

theorem isFilter_connective {t : Term} (h : t.isConnective = true) :
    t.isFilter = true ↔ ∀ u ∈ t.children, u.isFilter = true := by
  rw [isFilter_eq, if_pos h, List.all_eq_true]

theorem isFilter_atom {t : Term} (h : t.isConnective = false) :
    t.isFilter = true ↔ ∀ u ∈ t.children, u.isLeaf = true := by
  rw [isFilter_eq, h, if_neg Bool.false_ne_true, List.all_eq_true]

/-- The conditions that a term is the conjunction of, from left to right. -/
def conjuncts : Term → List Term := fold fun t below =>
  if t.role = some .all then below.flatten else [t]

theorem conjuncts_all {t : Term} (h : t.role = some .all) :
    t.conjuncts = t.children.flatMap conjuncts := by
  rw [conjuncts, fold_eq, if_pos h, List.flatMap_def]

theorem conjuncts_other {t : Term} (h : t.role ≠ some .all) : t.conjuncts = [t] := by
  rw [conjuncts, fold_eq, if_neg h]

/-- The conjuncts are under the term, and none is a conjunction in its turn. -/
theorem conjuncts_spec (t : Term) :
    ∀ u ∈ t.conjuncts, u ∈ t.subterms ∧ u.role ≠ some .all := by
  induction t using Term.induction with
  | node token quote children ih =>
    intro u hu
    by_cases hrole : (node token quote children).role = some .all
    · rw [conjuncts_all hrole] at hu
      obtain ⟨child, hchild, hu⟩ := List.mem_flatMap.1 hu
      obtain ⟨hsub, hother⟩ := ih child hchild u hu
      exact ⟨mem_subterms_of_child hchild hsub, hother⟩
    · rw [conjuncts_other hrole] at hu
      rw [List.mem_singleton.1 hu]
      exact ⟨mem_subterms_self _, hrole⟩

/-! ## Valuations -/

/-- A component of a key as a value.  It has the quotes of the key; one that
spells `null` is a text too, and is quoted in any case. -/
def component (key : Term) (part : String) : Term :=
  if key.isQuoted then .leaf part key.quote
  else if Text.sameWord part "null" then .leaf part (some .double)
  else .word part

end Term

/-- The truth of atoms. -/
structure Valuation where
  /-- `eq(column,value)` holds. -/
  equal : Term → Term → Bool
  /-- Any other atom holds. -/
  other : Term → Bool
  /-- What `not` and `if` make of a number of conditions that is not theirs. -/
  irregular : String → List Bool → Bool

namespace Valuation

variable (ρ : Valuation) (c : Collection)

/-- The truth of a connective, from that of its conditions. -/
def connect (token : String) : Role → List Bool → Bool
  | .all, values => values.all id
  | .any, values => values.any id
  | .negation, [value] => !value
  | .choice, [condition, yes, no] => if condition then yes else no
  | _, values => ρ.irregular token values

/-- The columns have the components of the key as their values. -/
def matchesKey (index : String) (columns : List Property) (key : Term) : Bool :=
  match CompositeKey.decode index key.token columns.length with
  | .ok parts => (List.zip columns parts).all fun (column, part) =>
      ρ.equal (.word column.name) (key.component part)
  | .error _ => false

/-- One of the keys is matched. -/
def key (index : String) (keys : List Term) : Bool :=
  match c.index index >>= c.keyProperties with
  | .ok columns => keys.any (ρ.matchesKey index columns)
  | .error _ => false

/-- The truth of an atom. -/
def atom (t : Term) : Bool :=
  match t.role, t.children with
  | some .key, index :: keys => ρ.key c index.token keys
  | some .equation, column :: value :: values => (value :: values).any (ρ.equal column)
  | some .membership, column :: values => values.any (ρ.equal column)
  | _, _ => ρ.other t

/-- The truth of a filter. -/
def holds : Term → Bool := Term.fold fun t values =>
  match t.connective? with
  | some r => ρ.connect t.token r values
  | none => ρ.atom c t

theorem holds_eq (t : Term) :
    ρ.holds c t = match t.connective? with
      | some r => ρ.connect t.token r (t.children.map (ρ.holds c))
      | none => ρ.atom c t := by
  rw [holds, Term.fold_eq]

theorem holds_atom {t : Term} (h : t.isConnective = false) : ρ.holds c t = ρ.atom c t := by
  rw [Term.isConnective, Option.isSome_eq_false_iff, Option.isNone_iff_eq_none] at h
  rw [holds_eq, h]

theorem holds_connective {t : Term} {r : Role} (h : t.role = some r)
    (hr : r.isConnective = true) :
    ρ.holds c t = ρ.connect t.token r (t.children.map (ρ.holds c)) := by
  rw [holds_eq, Term.connective?, h, Option.filter, if_pos hr]

theorem holds_all {t : Term} (h : t.role = some .all) :
    ρ.holds c t = t.children.all (ρ.holds c) := by
  rw [ρ.holds_connective c h rfl, connect, List.all_map]
  rfl

theorem holds_any {t : Term} (h : t.role = some .any) :
    ρ.holds c t = t.children.any (ρ.holds c) := by
  rw [ρ.holds_connective c h rfl, connect, List.any_map]
  rfl

/-- A term says that its conjuncts hold. -/
theorem holds_conjuncts (t : Term) : ρ.holds c t = t.conjuncts.all (ρ.holds c) := by
  induction t using Term.induction with
  | node token quote children ih =>
    by_cases hrole : (Term.node token quote children).role = some .all
    · rw [ρ.holds_all c hrole, Term.conjuncts_all hrole, List.all_flatMap, Bool.eq_iff_iff,
        List.all_eq_true, List.all_eq_true]
      refine forall_congr' fun u => forall_congr' fun hu => ?_
      rw [ih u hu]
    · rw [Term.conjuncts_other hrole, List.all_cons, List.all_nil, Bool.and_true]

/-- Conditions may give way to others with the same truth. -/
theorem holds_congr {token : String} {quote : Option Quote} {ts us : List Term}
    (h : (Term.node token quote ts).isConnective = true)
    (hvalues : ts.map (ρ.holds c) = us.map (ρ.holds c)) :
    ρ.holds c (.node token quote ts) = ρ.holds c (.node token quote us) := by
  obtain ⟨r, hr⟩ := Option.isSome_iff_exists.1 h
  have hr' : (Term.node token quote us).connective? = some r := hr
  rw [holds_eq, holds_eq, hr, hr']
  simp only [Term.children_node, Term.token_node, hvalues]

end Valuation
end ResourceQuery

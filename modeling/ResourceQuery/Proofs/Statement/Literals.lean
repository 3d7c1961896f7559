import Mathlib.Data.List.Forall2
import ResourceQuery.Proofs.Term.Induction
import ResourceQuery.Statement.Predicate

set_option autoImplicit false

/-!
# Filter terms that differ in their literals

The literals of a filter term are what its comparisons, memberships and text
tests other than `like` take after the column, except `null` and patterns. Terms
that are the same up to their literals are about the same columns and have the
same number of values for each.

`alike` is computed on terms, so it can be tested.  What proofs use of it are
its forms: the same words and quotes, the same columns, and values of the same
kind.
-/

namespace ResourceQuery

/-- The operator takes literals whose text matters only as a value. -/
def Operator.bindsLiterals : Operator → Bool
  | .comparison _ | .membership _ => true
  | .text op => op ≠ .like
  | .all | .any | .negation | .choice | .nullity _ | .blankness _ => false

namespace Term

/-- A leaf that is neither the keyword `null` nor a pattern. -/
def isLiteral (t : Term) : Bool := t.isLeaf && !t.isNull && !t.isPattern

/-- The word is one of an operator that takes literals. -/
def bindsLiterals (token : String) : Bool :=
  (Operator.ofWord? token).any Operator.bindsLiterals

mutual

/-- The terms are the same up to the texts and quotes of their literals. -/
def alike : Term → Term → Bool
  | .node token quote children, .node token' quote' children' =>
    token = token' && quote = quote' && alikeArguments (bindsLiterals token) children children'

/-- The first arguments are alike, and so are the others, or they are literals. -/
def alikeArguments (binds : Bool) : List Term → List Term → Bool
  | [], [] => true
  | c :: vs, c' :: vs' => alike c c' && alikeValues binds vs vs'
  | _, _ => false

/-- The arguments after the first one, where `binds` is set if they may be literals. -/
def alikeValues (binds : Bool) : List Term → List Term → Bool
  | [], [] => true
  | v :: vs, v' :: vs' =>
    (binds && v.isLiteral && v'.isLiteral || alike v v') && alikeValues binds vs vs'
  | _, _ => false

end

/-- The terms of two lists are alike in pairs. -/
def alikeAll (ts ts' : List Term) : Bool := alikeValues false ts ts'

/-! ## Arguments -/

/-- Arguments after the first one. -/
def AlikeValue (binds : Bool) (v v' : Term) : Prop :=
  (binds = true ∧ v.isLiteral = true ∧ v'.isLiteral = true) ∨ alike v v' = true

theorem forall₂_of_alikeValues {binds : Bool} :
    ∀ {vs vs' : List Term}, alikeValues binds vs vs' = true →
      List.Forall₂ (AlikeValue binds) vs vs'
  | [], [], _ => .nil
  | [], _ :: _, h | _ :: _, [], h => by simp [alikeValues] at h
  | v :: vs, v' :: vs', h => by
    simp only [alikeValues, Bool.and_eq_true, Bool.or_eq_true] at h
    refine .cons ?_ (forall₂_of_alikeValues h.2)
    rcases h.1 with ⟨⟨hbinds, hv⟩, hv'⟩ | halike
    · exact .inl ⟨hbinds, hv, hv'⟩
    · exact .inr halike

theorem alikeValue_false {v v' : Term} : AlikeValue false v v' ↔ alike v v' = true := by
  simp [AlikeValue]

theorem forall₂_of_alikeAll {ts ts' : List Term} (h : alikeAll ts ts' = true) :
    List.Forall₂ (fun t t' => alike t t' = true) ts ts' :=
  (forall₂_of_alikeValues h).imp fun _ _ => alikeValue_false.1

/-- Alike terms have the same word and the same quotes, and no arguments or a
first argument and values that are alike. -/
theorem alike_cases {t t' : Term} (h : alike t t' = true) :
    t.token = t'.token ∧ t.quote = t'.quote ∧
      ((t.children = [] ∧ t'.children = []) ∨ ∃ c vs c' vs', t.children = c :: vs ∧
        t'.children = c' :: vs' ∧ alike c c' = true ∧
        List.Forall₂ (AlikeValue (bindsLiterals t.token)) vs vs') := by
  obtain ⟨token, quote, children⟩ := t
  obtain ⟨token', quote', children'⟩ := t'
  simp only [alike, Bool.and_eq_true, decide_eq_true_eq] at h
  obtain ⟨⟨htoken, hquote⟩, harguments⟩ := h
  refine ⟨htoken, hquote, ?_⟩
  cases children with
  | nil =>
    cases children' with
    | nil => exact .inl ⟨rfl, rfl⟩
    | cons c' vs' => simp [alikeArguments] at harguments
  | cons c vs =>
    cases children' with
    | nil => simp [alikeArguments] at harguments
    | cons c' vs' =>
      simp only [alikeArguments, Bool.and_eq_true] at harguments
      exact .inr ⟨c, vs, c', vs', rfl, rfl, harguments.1, forall₂_of_alikeValues harguments.2⟩

variable {t t' : Term}

theorem token_eq_of_alike (h : alike t t' = true) : t.token = t'.token := (alike_cases h).1

theorem quote_eq_of_alike (h : alike t t' = true) : t.quote = t'.quote := (alike_cases h).2.1

theorem length_eq_of_alike (h : alike t t' = true) :
    t.children.length = t'.children.length := by
  obtain ⟨_, _, ⟨hnil, hnil'⟩ | ⟨c, vs, c', vs', hchildren, hchildren', _, hvs⟩⟩ := alike_cases h
  · rw [hnil, hnil']
  · rw [hchildren, hchildren', List.length_cons, List.length_cons, hvs.length_eq]

/-- Terms of an operator without literals have alike arguments. -/
theorem forall₂_children_of_alike (h : alike t t' = true) (hbinds : bindsLiterals t.token = false) :
    List.Forall₂ (fun c c' => alike c c' = true) t.children t'.children := by
  obtain ⟨_, _, ⟨hnil, hnil'⟩ | ⟨c, vs, c', vs', hchildren, hchildren', hc, hvs⟩⟩ := alike_cases h
  · rw [hnil, hnil']
    exact .nil
  · rw [hchildren, hchildren']
    rw [hbinds] at hvs
    exact .cons hc (hvs.imp fun _ _ => alikeValue_false.1)

/-- Of leaves only the same ones are alike. -/
theorem eq_of_alike_of_isLeaf (h : alike t t' = true) (hleaf : t.isLeaf = true) : t = t' := by
  obtain ⟨token, quote, children⟩ := t
  obtain ⟨token', quote', children'⟩ := t'
  obtain rfl : children = [] := List.isEmpty_iff.1 hleaf
  have hlength := length_eq_of_alike h
  obtain rfl : children' = [] := List.length_eq_zero_iff.1 hlength.symm
  obtain rfl : token = token' := token_eq_of_alike h
  obtain rfl : quote = quote' := quote_eq_of_alike h
  rfl

theorem isLeaf_eq_of_alike (h : alike t t' = true) : t.isLeaf = t'.isLeaf := by
  rw [Bool.eq_iff_iff, isLeaf, isLeaf, List.isEmpty_iff_length_eq_zero,
    List.isEmpty_iff_length_eq_zero, length_eq_of_alike h]

/-- Of a value nothing is seen but whether it is a leaf, `null` or a pattern. -/
structure SameKind (v v' : Term) : Prop where
  isLeaf_eq : v.isLeaf = v'.isLeaf
  isNull_eq : v.isNull = v'.isNull
  isPattern_eq : v.isPattern = v'.isPattern

theorem AlikeValue.sameKind {binds : Bool} {v v' : Term} (h : AlikeValue binds v v') :
    SameKind v v' := by
  rcases h with ⟨_, hv, hv'⟩ | halike
  · simp only [isLiteral, Bool.and_eq_true, Bool.not_eq_true'] at hv hv'
    exact ⟨by rw [hv.1.1, hv'.1.1], by rw [hv.1.2, hv'.1.2], by rw [hv.2, hv'.2]⟩
  · have hleaf := isLeaf_eq_of_alike halike
    cases hv : v.isLeaf with
    | true =>
      obtain rfl := eq_of_alike_of_isLeaf halike hv
      exact ⟨rfl, rfl, rfl⟩
    | false =>
      rw [hv] at hleaf
      refine ⟨by rw [hv, hleaf], ?_, ?_⟩
      · rw [isNull, isNull, hv, ← hleaf, Bool.false_and, Bool.false_and]
      · simp only [isPattern, isWord, hv, ← hleaf, Bool.false_and]

/-- A value that is `null` or a pattern is the same in both terms. -/
theorem AlikeValue.eq_of_special {binds : Bool} {v v' : Term} (h : AlikeValue binds v v')
    (hv : v.isNull = true ∨ v.isPattern = true) : v = v' := by
  have hleaf : v.isLeaf = true := by
    rcases hv with hv | hv
    · exact (Bool.and_eq_true_iff.1 hv).1
    · exact (Bool.and_eq_true_iff.1 (Bool.and_eq_true_iff.1 hv).1).1
  rcases h with ⟨_, hliteral, _⟩ | halike
  · simp only [isLiteral, Bool.and_eq_true, Bool.not_eq_true'] at hliteral
    rcases hv with hv | hv
    · exact absurd hv (by rw [hliteral.1.2]; decide)
    · exact absurd hv (by rw [hliteral.2]; decide)
  · exact eq_of_alike_of_isLeaf halike hleaf

/-! ## Columns and values -/

theorem column_eq_of_alike (h : alike t t' = true) : t.column = t'.column := by
  obtain ⟨htoken, _, ⟨hnil, hnil'⟩ | ⟨c, vs, c', vs', hchildren, hchildren', hc, _⟩⟩ :=
    alike_cases h
  · rw [column, column, hnil, hnil', htoken]
  · rw [column, column, hchildren, hchildren']
    have hword : c.isWord = c'.isWord := by
      rw [isWord, isWord, isQuoted, isQuoted, isLeaf_eq_of_alike hc, quote_eq_of_alike hc]
    dsimp only
    rw [hword, token_eq_of_alike hc, htoken]

/-- Alike terms both have a single value, or neither has. -/
theorem value_of_alike (h : alike t t' = true) :
    (∃ v v', t.value = .ok v ∧ t'.value = .ok v' ∧ AlikeValue (bindsLiterals t.token) v v') ∨
      ∃ fault fault', t.value = .error fault ∧ t'.value = .error fault' := by
  obtain ⟨_, _, ⟨hnil, hnil'⟩ | ⟨c, vs, c', vs', hchildren, hchildren', _, hvs⟩⟩ := alike_cases h
  · rw [value, value, hnil, hnil']
    exact .inr ⟨_, _, rfl, rfl⟩
  · rw [value, value, hchildren, hchildren']
    match vs, vs', hvs with
    | [], [], .nil => exact .inr ⟨_, _, rfl, rfl⟩
    | [v], [v'], .cons hv .nil => exact .inl ⟨v, v', rfl, rfl, hv⟩
    | _ :: _ :: _, _ :: _ :: _, _ => exact .inr ⟨_, _, rfl, rfl⟩

theorem alikeValue_of_value {v v' : Term} (h : alike t t' = true) (hv : t.value = .ok v)
    (hv' : t'.value = .ok v') : AlikeValue (bindsLiterals t.token) v v' := by
  rcases value_of_alike h with ⟨u, u', hu, hu', halike⟩ | ⟨_, _, hfault, _⟩
  · rw [hu, Except.ok.injEq] at hv
    rw [hu', Except.ok.injEq] at hv'
    subst hv hv'
    exact halike
  · rw [hfault] at hv
    cases hv

theorem forall₂_of_values {vs vs' : List Term} (h : alike t t' = true) (hvs : t.values = .ok vs)
    (hvs' : t'.values = .ok vs') : List.Forall₂ (AlikeValue (bindsLiterals t.token)) vs vs' := by
  obtain ⟨_, _, ⟨hnil, _⟩ | ⟨c, us, c', us', hchildren, hchildren', _, hus⟩⟩ := alike_cases h
  · rw [values, hnil] at hvs
    cases hvs
  · rw [values, hchildren, List.tail_cons] at hvs
    rw [values, hchildren', List.tail_cons] at hvs'
    cases hus with
    | nil => cases hvs
    | cons hu hus =>
      cases hvs
      cases hvs'
      exact .cons hu hus

/-- The text of a leaf that is alike. -/
theorem literal_eq_of_alike {path text text' : String} (h : alike t t' = true)
    (htext : t.literal path = .ok text) (htext' : t'.literal path = .ok text') : text = text' := by
  unfold literal at htext
  split at htext
  · next hleaf =>
    obtain rfl := eq_of_alike_of_isLeaf h hleaf
    rw [literal, if_pos hleaf] at htext'
    rw [← Except.ok.inj htext, ← Except.ok.inj htext']
  · cases htext

/-! ## Every term is alike itself -/

theorem alikeValues_self {binds : Bool} {vs : List Term} (h : ∀ v ∈ vs, alike v v = true) :
    alikeValues binds vs vs = true := by
  induction vs with
  | nil => rw [alikeValues]
  | cons v vs ih =>
    rw [alikeValues, h v List.mem_cons_self, Bool.or_true, Bool.true_and]
    exact ih fun u hu => h u (List.mem_cons_of_mem v hu)

/-- Every term is alike itself. -/
theorem alike_refl (t : Term) : alike t t = true := by
  induction t using Term.induction with
  | node token quote children ih =>
    cases children with
    | nil => simp [alike, alikeArguments]
    | cons c vs =>
      have hc := ih c List.mem_cons_self
      have hvs : alikeValues (bindsLiterals token) vs vs = true :=
        alikeValues_self fun v hv => ih v (List.mem_cons_of_mem c hv)
      simp [alike, alikeArguments, hc, hvs]

end Term
end ResourceQuery

import ResourceQuery.Statement.Pattern

set_option autoImplicit false

/-!
# Statements: what text patterns match

How a database matches a text with a `LIKE` pattern, with the backslash as the
escape character, and that the pattern of a text operator matches the texts that
the operator asks for: those that begin with its text, end with it or have it as
a part, and for `like` those that come about when each `*` is replaced by some
text.

Matching is by recursion on the pattern, where `%` tries all ends of the text.
The escapes are handled one character at a time (`accepts_likeChar_iff`), and
the rest is by induction on the text of the operator.
-/

namespace ResourceQuery.Pattern

/-! ## Matching -/

/-- Some end of the text passes the test.  The whole text and the empty one are ends of it. -/
def someEnd (test : List Char → Bool) : List Char → Bool
  | [] => test []
  | c :: text => test (c :: text) || someEnd test text

/-- The text matches the `LIKE` pattern.  Nothing matches a pattern that ends within an escape. -/
def accepts : List Char → List Char → Bool
  | [], text => text.isEmpty
  | '%' :: pattern, text => someEnd (accepts pattern) text
  | '_' :: pattern, text => text.head?.isSome && accepts pattern text.tail
  | ['\\'], _ => false
  | '\\' :: c :: pattern, text => text.head? == some c && accepts pattern text.tail
  | c :: pattern, text => text.head? == some c && accepts pattern text.tail

/-- The text matches the `LIKE` pattern. -/
def Matches (pattern text : String) : Prop := accepts pattern.toList text.toList = true

instance (pattern text : String) : Decidable (Matches pattern text) :=
  inferInstanceAs (Decidable (_ = _))

theorem someEnd_iff {test : List Char → Bool} {text : List Char} :
    someEnd test text = true ↔ ∃ front rest, text = front ++ rest ∧ test rest = true := by
  induction text with
  | nil =>
    constructor
    · intro h
      exact ⟨[], [], rfl, h⟩
    · rintro ⟨front, rest, htext, htest⟩
      obtain ⟨_, rfl⟩ := List.append_eq_nil_iff.1 htext.symm
      exact htest
  | cons c text ih =>
    rw [someEnd, Bool.or_eq_true, ih]
    constructor
    · rintro (htest | ⟨front, rest, rfl, htest⟩)
      · exact ⟨[], c :: text, rfl, htest⟩
      · exact ⟨c :: front, rest, rfl, htest⟩
    · rintro ⟨front, rest, htext, htest⟩
      cases front with
      | nil =>
        rw [List.nil_append] at htext
        rw [htext]
        exact .inl htest
      | cons x front =>
        obtain ⟨_, rfl⟩ := List.cons.inj htext
        exact .inr ⟨front, rest, rfl, htest⟩

section Accepts

variable {pattern text : List Char}

theorem accepts_nil_iff : accepts [] text = true ↔ text = [] := by
  rw [accepts, List.isEmpty_iff]

/-- A `%` is matched by some text in front of what the rest matches. -/
theorem accepts_anyText_iff :
    accepts ('%' :: pattern) text = true ↔
      ∃ front rest, text = front ++ rest ∧ accepts pattern rest = true := by
  rw [accepts, someEnd_iff]

/-- A character that stands for itself. -/
theorem head?_and_accepts_iff {c : Char} :
    (text.head? == some c && accepts pattern text.tail) = true ↔
      ∃ rest, text = c :: rest ∧ accepts pattern rest = true := by
  rw [Bool.and_eq_true, beq_iff_eq]
  constructor
  · rintro ⟨hhead, haccepts⟩
    obtain ⟨rest, rfl⟩ := List.head?_eq_some_iff.1 hhead
    exact ⟨rest, rfl, haccepts⟩
  · rintro ⟨rest, rfl, haccepts⟩
    exact ⟨rfl, haccepts⟩

/-- A character that is not a `*` with a meaning is matched by itself alone. -/
theorem accepts_likeChar_iff {starred : Bool} {c : Char} (h : ¬(c = '*' ∧ starred = true)) :
    accepts (likeChar starred c ++ pattern) text = true ↔
      ∃ rest, text = c :: rest ∧ accepts pattern rest = true := by
  unfold likeChar
  by_cases hspecial : c = '%' ∨ c = '_' ∨ c = '\\'
  · rw [if_pos hspecial, List.cons_append, List.singleton_append, accepts, head?_and_accepts_iff]
  · rw [if_neg hspecial, if_neg h, List.singleton_append]
    simp only [not_or] at hspecial
    obtain ⟨hany, hone, hescape⟩ := hspecial
    rw [accepts, head?_and_accepts_iff]
    · exact fun h => hany h
    · exact fun h => hone h
    · exact fun h _ => hescape h
    · exact fun _ _ h _ => hescape h

/-- A text without stars that have a meaning is matched by itself alone. -/
theorem accepts_escaped_iff {starred : Bool} {part : List Char}
    (h : starred = true → '*' ∉ part) :
    accepts (part.flatMap (likeChar starred) ++ pattern) text = true ↔
      ∃ rest, text = part ++ rest ∧ accepts pattern rest = true := by
  induction part generalizing text with
  | nil =>
    rw [List.flatMap_nil, List.nil_append]
    constructor
    · intro haccepts
      exact ⟨text, rfl, haccepts⟩
    · rintro ⟨rest, rfl, haccepts⟩
      exact haccepts
  | cons c part ih =>
    have hfirst : ¬(c = '*' ∧ starred = true) := by
      rintro ⟨rfl, hstarred⟩
      exact h hstarred List.mem_cons_self
    have hrest : starred = true → '*' ∉ part := fun hstarred hmem =>
      h hstarred (List.mem_cons_of_mem c hmem)
    rw [List.flatMap_cons, List.append_assoc, accepts_likeChar_iff hfirst]
    constructor
    · rintro ⟨_, rfl, haccepts⟩
      obtain ⟨rest, rfl, hend⟩ := (ih hrest).1 haccepts
      exact ⟨rest, rfl, hend⟩
    · rintro ⟨rest, rfl, haccepts⟩
      exact ⟨part ++ rest, rfl, (ih hrest).2 ⟨rest, rfl, haccepts⟩⟩

theorem accepts_any : accepts ['%'] text = true :=
  accepts_anyText_iff.2 ⟨text, [], (List.append_nil text).symm, rfl⟩

end Accepts

/-! ## Beginnings, ends and parts -/

section Operators

variable {part text : List Char}

/-- The characters of an operator other than `like` are matched by themselves alone. -/
theorem accepts_part_iff {pattern : List Char} :
    accepts (part.flatMap (likeChar false) ++ pattern) text = true ↔
      ∃ rest, text = part ++ rest ∧ accepts pattern rest = true :=
  accepts_escaped_iff (fun h => by cases h)

theorem accepts_startsWith_iff :
    accepts (likeChars .startsWith part) text = true ↔ part <+: text := by
  change accepts (part.flatMap (likeChar false) ++ ['%']) text = true ↔ _
  rw [accepts_part_iff]
  constructor
  · rintro ⟨rest, rfl, _⟩
    exact List.prefix_append part rest
  · rintro ⟨rest, rfl⟩
    exact ⟨rest, rfl, accepts_any⟩

theorem accepts_endsWith_iff :
    accepts (likeChars .endsWith part) text = true ↔ part <:+ text := by
  change accepts ('%' :: part.flatMap (likeChar false)) text = true ↔ _
  rw [accepts_anyText_iff, ← List.append_nil (part.flatMap _)]
  constructor
  · rintro ⟨front, rest, rfl, haccepts⟩
    obtain ⟨rest, rfl, hnil⟩ := accepts_part_iff.1 haccepts
    rw [accepts_nil_iff.1 hnil, List.append_nil]
    exact List.suffix_append front part
  · rintro ⟨front, rfl⟩
    refine ⟨front, part, rfl, accepts_part_iff.2 ⟨[], ?_, rfl⟩⟩
    exact (List.append_nil part).symm

/-- Both operators about parts have the same pattern. -/
theorem accepts_contains_iff {op : TextOperator} (h : op = .contains ∨ op = .lacks) :
    accepts (likeChars op part) text = true ↔ part <:+: text := by
  have hchars : likeChars op part = '%' :: (part.flatMap (likeChar false) ++ ['%']) := by
    rcases h with rfl | rfl
    · rfl
    · rfl
  rw [hchars, accepts_anyText_iff]
  constructor
  · rintro ⟨front, rest, rfl, haccepts⟩
    obtain ⟨rest, rfl, _⟩ := accepts_part_iff.1 haccepts
    rw [← List.append_assoc]
    exact List.infix_append front part rest
  · rintro ⟨front, rest, rfl⟩
    rw [List.append_assoc]
    exact ⟨front, part ++ rest, rfl, accepts_part_iff.2 ⟨rest, rfl, accepts_any⟩⟩

end Operators

/-! ## Stars -/

/-- The characters with each `*` replaced by the text for its place. -/
def filled (fills : Nat → List Char) (cs : List Char) : List Char :=
  (cs.mapIdx fun i c => if c = '*' then fills i else [c]).flatten

theorem filled_cons (fills : Nat → List Char) (c : Char) (cs : List Char) :
    filled fills (c :: cs) =
      (if c = '*' then fills 0 else [c]) ++ filled (fun i => fills (i + 1)) cs := by
  rw [filled, List.mapIdx_cons, List.flatten_cons]
  rfl

/-- A text for the first place and texts for all others. -/
theorem exists_fills (first : List Char) (others : Nat → List Char) :
    ∃ fills : Nat → List Char, fills 0 = first ∧ (fun i => fills (i + 1)) = others := by
  refine ⟨fun i => if i = 0 then first else others (i - 1), if_pos rfl, funext fun i => ?_⟩
  dsimp only
  rw [if_neg (Nat.succ_ne_zero i), Nat.add_sub_cancel]

/-- The pattern of `like` matches what comes about when the stars are filled. -/
theorem accepts_like_iff {cs text : List Char} :
    accepts (likeChars .like cs) text = true ↔ ∃ fills, text = filled fills cs := by
  change accepts (cs.flatMap (likeChar true)) text = true ↔ _
  induction cs generalizing text with
  | nil =>
    rw [List.flatMap_nil, accepts_nil_iff]
    constructor
    · intro hnil
      exact ⟨fun _ => [], hnil⟩
    · rintro ⟨_, hnil⟩
      exact hnil
  | cons c cs ih =>
    rw [List.flatMap_cons]
    by_cases hstar : c = '*'
    · subst hstar
      have hany : likeChar true '*' ++ cs.flatMap (likeChar true) =
          '%' :: cs.flatMap (likeChar true) := rfl
      rw [hany, accepts_anyText_iff]
      constructor
      · rintro ⟨front, rest, rfl, haccepts⟩
        obtain ⟨others, rfl⟩ := ih.1 haccepts
        obtain ⟨fills, rfl, rfl⟩ := exists_fills front others
        exact ⟨fills, by rw [filled_cons, if_pos rfl]⟩
      · rintro ⟨fills, rfl⟩
        refine ⟨fills 0, filled (fun i => fills (i + 1)) cs, ?_, ih.2 ⟨_, rfl⟩⟩
        rw [filled_cons, if_pos rfl]
    · rw [accepts_likeChar_iff fun h => hstar h.1]
      constructor
      · rintro ⟨rest, rfl, haccepts⟩
        obtain ⟨others, rfl⟩ := ih.1 haccepts
        obtain ⟨fills, _, rfl⟩ := exists_fills [] others
        exact ⟨fills, by rw [filled_cons, if_neg hstar, List.singleton_append]⟩
      · rintro ⟨fills, rfl⟩
        refine ⟨filled (fun i => fills (i + 1)) cs, ?_, ih.2 ⟨_, rfl⟩⟩
        rw [filled_cons, if_neg hstar, List.singleton_append]

/-! ## Patterns of operators -/

/-- The pattern of an operator matches the texts that the operator asks for. -/
theorem like_matches_as_asked (part text : String) :
    (Matches (like .startsWith part) text ↔ part.toList <+: text.toList) ∧
    (Matches (like .endsWith part) text ↔ part.toList <:+ text.toList) ∧
    (Matches (like .contains part) text ↔ part.toList <:+: text.toList) ∧
    (Matches (like .lacks part) text ↔ part.toList <:+: text.toList) ∧
    (Matches (like .like part) text ↔ ∃ fills, text.toList = filled fills part.toList) := by
  have hchars : ∀ op, (like op part).toList = likeChars op part.toList :=
    fun op => String.toList_ofList
  simp only [Matches, hchars]
  exact ⟨accepts_startsWith_iff, accepts_endsWith_iff, accepts_contains_iff (.inl rfl),
    accepts_contains_iff (.inr rfl), accepts_like_iff⟩

example : Matches (like .contains "5%_") "a 5%_ b" ∧ ¬Matches (like .contains "5%_") "a 500 b" ∧
    Matches (like .like "*5%*\\") "15% off\\" := by
  decide

end ResourceQuery.Pattern

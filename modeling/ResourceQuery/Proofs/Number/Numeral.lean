import ResourceQuery.Number.Numeral

set_option autoImplicit false

/-!
# Number: the form of numerals

What is read as a number consists of digits, letters, signs and points.  The
reader of decimal numerals takes what their grammar derives, and nothing else.

Both directions go through the parts of a numeral in the order in which the
reader takes them off: the sign, the digits before the point, those behind it,
and the exponent.
-/

namespace ResourceQuery.Number

/-- A character that may occur in a numeral. -/
def isNumeralChar (c : Char) : Bool := isDigit c || c.isAlpha || ['+', '-', '.'].contains c

theorem isNumeralChar_of_isDigit {c : Char} (h : isDigit c = true) : isNumeralChar c = true := by
  simp [isNumeralChar, h]

/-- Apart from signs, the characters are those of the part behind the sign. -/
theorem isNumeralChar_of_splitSign {cs : List Char}
    (h : ∀ c ∈ (splitSign cs).2, isNumeralChar c = true) : ∀ c ∈ cs, isNumeralChar c = true := by
  unfold splitSign at h
  split at h
  · intro c hc
    rcases List.mem_cons.1 hc with rfl | hc
    · decide
    · exact h c hc
  · intro c hc
    rcases List.mem_cons.1 hc with rfl | hc
    · decide
    · exact h c hc
  · exact h

theorem isDigit_of_digits? {cs : List Char} {n : Nat} (h : digits? cs = some n) :
    ∀ c ∈ cs, isDigit c = true := by
  unfold digits? at h
  split at h
  · next hall => exact List.all_eq_true.1 hall.2
  · cases h

theorem isNumeralChar_of_exponent? {cs : List Char} {e : Int} (h : exponent? cs = some e) :
    ∀ c ∈ cs, isNumeralChar c = true := by
  cases cs with
  | nil => intro c hc; cases hc
  | cons first cs =>
    rw [exponent?] at h
    split at h
    · next hfirst =>
      obtain ⟨n, hnumber, _⟩ := Option.map_eq_some_iff.1 h
      obtain ⟨m, hdigits, _⟩ := Option.bind_eq_some_iff.1 hnumber
      intro c hc
      rcases List.mem_cons.1 hc with rfl | hc
      · rcases hfirst with rfl | rfl <;> decide
      · refine isNumeralChar_of_splitSign (fun c hc => ?_) c hc
        exact isNumeralChar_of_isDigit (isDigit_of_digits? hdigits c hc)
    · cases h

/-- The digits at the start of a text, before what is left. -/
theorem isNumeralChar_of_dropWhile {cs : List Char}
    (h : ∀ c ∈ cs.dropWhile isDigit, isNumeralChar c = true) :
    ∀ c ∈ cs, isNumeralChar c = true := by
  intro c hc
  rw [← List.takeWhile_append_dropWhile (p := isDigit) (l := cs)] at hc
  rcases List.mem_append.1 hc with hc | hc
  · exact isNumeralChar_of_isDigit (List.all_eq_true.1 List.all_takeWhile c hc)
  · exact h c hc

theorem isNumeralChar_of_unsignedDecimal? {negative : Bool} {cs : List Char} {x : Decimal}
    (h : unsignedDecimal? negative cs = some x) : ∀ c ∈ cs, isNumeralChar c = true := by
  refine isNumeralChar_of_dropWhile fun c hc => ?_
  unfold unsignedDecimal? at h
  dsimp only at h
  split at h
  · next r hpoint =>
    split at h
    · cases h
    · obtain ⟨e, hexponent, _⟩ := Option.map_eq_some_iff.1 h
      rw [hpoint] at hc
      rcases List.mem_cons.1 hc with rfl | hc
      · decide
      · exact isNumeralChar_of_dropWhile (isNumeralChar_of_exponent? hexponent) c hc
  · split at h
    · cases h
    · obtain ⟨e, hexponent, _⟩ := Option.map_eq_some_iff.1 h
      exact isNumeralChar_of_exponent? hexponent c hc

theorem isNumeralChar_of_isBoundless {s : String} (h : isBoundless s = true) :
    ∀ c ∈ s.toList, isNumeralChar c = true := by
  refine isNumeralChar_of_splitSign fun c hc => ?_
  have hword : (splitSign s.toList).2.map Char.toLower ∈ boundlessWords :=
    List.contains_iff_mem.1 h
  have hlower : isNumeralChar c.toLower = true := by
    have hletters : boundlessWords.all (List.all · isNumeralChar) = true := by decide
    exact List.all_eq_true.1 (List.all_eq_true.1 hletters _ hword) _ (List.mem_map_of_mem hc)
  cases hupper : c.isUpper with
  | true =>
    have halpha : c.isAlpha = (c.isUpper || c.isLower) := rfl
    simp [isNumeralChar, halpha, hupper]
  | false =>
    have hrange : ¬(c.val ≥ 'A'.val ∧ c.val ≤ 'Z'.val) := of_decide_eq_false hupper
    have hsame : c.toLower = c := dif_neg hrange
    rwa [hsame] at hlower

/-- What is read as a number consists of characters of numerals. -/
theorem isNumeralChar_of_isNumber {s : String} (h : isNumber s = true) :
    ∀ c ∈ s.toList, isNumeralChar c = true := by
  rcases Bool.or_eq_true_iff.1 h with hdecimal | hboundless
  · obtain ⟨x, hx⟩ := Option.isSome_iff_exists.1 hdecimal
    exact isNumeralChar_of_splitSign (isNumeralChar_of_unsignedDecimal? hx)
  · exact isNumeralChar_of_isBoundless hboundless

/-! ## The grammar of decimal numerals -/

/-- One or more digits. -/
def IsDigits (cs : List Char) : Prop := cs ≠ [] ∧ cs.all isDigit = true

/-- Nothing, or a sign. -/
def IsSign (cs : List Char) : Prop := cs ∈ [[], ['+'], ['-']]

/-- Digits, and a point before, in between or behind. -/
inductive IsMantissa : List Char → Prop where
  | whole {w : List Char} (h : IsDigits w) : IsMantissa w
  | point {w f : List Char} (h : IsDigits w) (hf : f.all isDigit = true) : IsMantissa (w ++ '.' :: f)
  | fraction {f : List Char} (h : IsDigits f) : IsMantissa ('.' :: f)

/-- Nothing, or a letter and a whole number. -/
inductive IsExponent : List Char → Prop where
  | nothing : IsExponent []
  | power {letter : Char} {sign n : List Char} (hletter : letter = 'e' ∨ letter = 'E')
      (hsign : IsSign sign) (h : IsDigits n) : IsExponent (letter :: (sign ++ n))

/-- A decimal numeral, as a sequence of its parts. -/
def IsDecimal (s : String) : Prop :=
  ∃ sign mantissa exponent, IsSign sign ∧ IsMantissa mantissa ∧ IsExponent exponent ∧
    s.toList = sign ++ (mantissa ++ exponent)

theorem digits?_isSome_iff {cs : List Char} : (digits? cs).isSome = true ↔ IsDigits cs := by
  simp [digits?, IsDigits]

/-- The sign is in front of what is behind it. -/
theorem splitSign_eq (cs : List Char) : ∃ sign, IsSign sign ∧ cs = sign ++ (splitSign cs).2 := by
  unfold splitSign
  split
  · exact ⟨['-'], by simp [IsSign], rfl⟩
  · exact ⟨['+'], by simp [IsSign], rfl⟩
  · exact ⟨[], by simp [IsSign], rfl⟩

theorem splitSign_append {sign body : List Char} (hsign : IsSign sign)
    (hbody : ∀ c, body.head? = some c → c ≠ '-' ∧ c ≠ '+') : (splitSign (sign ++ body)).2 = body := by
  simp only [IsSign, List.mem_cons, List.not_mem_nil, or_false] at hsign
  rcases hsign with rfl | rfl | rfl
  · cases body with
    | nil => rfl
    | cons c cs =>
      obtain ⟨hminus, hplus⟩ := hbody c rfl
      rw [List.nil_append, splitSign]
      · exact fun _ h => hminus (List.cons.inj h).1
      · exact fun _ h => hplus (List.cons.inj h).1
  · rfl
  · rfl

theorem IsDigits.head?_ne {cs : List Char} (h : IsDigits cs) {c : Char} (hc : cs.head? = some c)
    {x : Char} (hx : isDigit x = false) : c ≠ x := by
  rintro rfl
  have hdigit := List.all_eq_true.1 h.2 c (List.mem_of_mem_head? hc)
  rw [hx] at hdigit
  cases hdigit

theorem isSome_exponent?_cons {letter : Char} (h : letter = 'e' ∨ letter = 'E') (cs : List Char) :
    (exponent? (letter :: cs)).isSome = (digits? (splitSign cs).2).isSome := by
  rw [exponent?, if_pos h, Option.isSome_map]
  cases digits? (splitSign cs).2 <;> rfl

theorem exponent?_isSome_iff {cs : List Char} : (exponent? cs).isSome = true ↔ IsExponent cs := by
  constructor
  · intro h
    cases cs with
    | nil => exact .nothing
    | cons letter cs =>
      by_cases hletter : letter = 'e' ∨ letter = 'E'
      · obtain ⟨sign, hsign, hcs⟩ := splitSign_eq cs
        rw [isSome_exponent?_cons hletter] at h
        rw [hcs]
        exact .power hletter hsign (digits?_isSome_iff.1 h)
      · rw [exponent?, if_neg hletter] at h
        cases h
  · rintro (_ | ⟨hletter, hsign, hdigits⟩)
    · rfl
    · have hbody := splitSign_append hsign fun c hc =>
        ⟨hdigits.head?_ne hc (by decide), hdigits.head?_ne hc (by decide)⟩
      rw [isSome_exponent?_cons hletter, hbody]
      exact digits?_isSome_iff.2 hdigits

/-- An exponent is neither a point nor a digit at its start. -/
theorem IsExponent.head?_ne {cs : List Char} (h : IsExponent cs) {c : Char}
    (hc : cs.head? = some c) : isDigit c = false ∧ c ≠ '.' := by
  rcases h with _ | ⟨hletter, _, _⟩
  · cases hc
  · obtain rfl := Option.some.inj hc
    rcases hletter with rfl | rfl <;> decide

/-- Digits end where something else starts. -/
theorem span_digits {w rest : List Char} (hw : w.all isDigit = true)
    (hrest : ∀ c, rest.head? = some c → isDigit c = false) :
    (w ++ rest).takeWhile isDigit = w ∧ (w ++ rest).dropWhile isDigit = rest := by
  have hnone : rest.takeWhile isDigit = [] ∧ rest.dropWhile isDigit = rest := by
    cases rest with
    | nil => exact ⟨rfl, rfl⟩
    | cons c cs => simp [hrest c rfl]
  rw [List.takeWhile_append_of_pos (List.all_eq_true.1 hw),
    List.dropWhile_append_of_pos (List.all_eq_true.1 hw), hnone.1, hnone.2, List.append_nil]
  exact ⟨rfl, rfl⟩

/-- Behind the sign, the reader takes a mantissa and an exponent. -/
theorem unsignedDecimal?_isSome_iff {negative : Bool} {cs : List Char} :
    (unsignedDecimal? negative cs).isSome = true ↔
      ∃ mantissa exponent, IsMantissa mantissa ∧ IsExponent exponent ∧ cs = mantissa ++ exponent := by
  constructor
  · intro h
    have hcs := List.takeWhile_append_dropWhile (p := isDigit) (l := cs)
    have hwhole : (cs.takeWhile isDigit).all isDigit = true := List.all_takeWhile
    unfold unsignedDecimal? at h
    dsimp only at h
    split at h
    · next r hpoint =>
      split at h
      · cases h
      · next hne =>
        have hr := List.takeWhile_append_dropWhile (p := isDigit) (l := r)
        have hfraction : (r.takeWhile isDigit).all isDigit = true := List.all_takeWhile
        have hexponent : IsExponent (r.dropWhile isDigit) :=
          exponent?_isSome_iff.1 (by simpa using h)
        have hparts : cs = cs.takeWhile isDigit ++ '.' :: r.takeWhile isDigit ++
            r.dropWhile isDigit := by
          rw [List.append_assoc, List.cons_append, hr, ← hpoint, hcs]
        -- a point needs digits on one of its sides, and which side tells the form of the mantissa
        by_cases hnil : cs.takeWhile isDigit = []
        · rw [hnil] at hparts
          exact ⟨_, _, .fraction ⟨fun hf => hne ⟨hnil, hf⟩, hfraction⟩, hexponent, hparts⟩
        · exact ⟨_, _, .point ⟨hnil, hwhole⟩ hfraction, hexponent, hparts⟩
    · split at h
      · cases h
      · next hne =>
        have hnil : cs.takeWhile isDigit ≠ [] := fun hnil => hne ⟨hnil, rfl⟩
        exact ⟨_, _, .whole ⟨hnil, hwhole⟩, exponent?_isSome_iff.1 (by simpa using h), hcs.symm⟩
  · rintro ⟨mantissa, exponent, hmantissa, hexponent, rfl⟩
    have hsome : (exponent? exponent).isSome = true := exponent?_isSome_iff.2 hexponent
    have hpoint : ∀ {f : List Char}, ∀ c, ('.' :: f).head? = some c → isDigit c = false := by
      intro f c hc
      obtain rfl := Option.some.inj hc
      decide
    unfold unsignedDecimal?
    cases hmantissa with
    | whole h =>
      obtain ⟨htake, hdrop⟩ := span_digits h.2 fun c hc => (hexponent.head?_ne hc).1
      dsimp only
      rw [htake, hdrop]
      split
      · exact absurd rfl (hexponent.head?_ne rfl).2
      · simpa [h.1] using hsome
    | @point w f h hf =>
      obtain ⟨htake, hdrop⟩ := span_digits h.2 (hpoint (f := f ++ exponent))
      obtain ⟨htake', hdrop'⟩ := span_digits hf fun c hc => (hexponent.head?_ne hc).1
      dsimp only
      rw [List.append_assoc, List.cons_append, htake, hdrop]
      simp only [htake', hdrop']
      simpa [h.1] using hsome
    | @fraction f h =>
      obtain ⟨htake, hdrop⟩ := span_digits (w := []) rfl (hpoint (f := f ++ exponent))
      obtain ⟨htake', hdrop'⟩ := span_digits h.2 fun c hc => (hexponent.head?_ne hc).1
      rw [List.nil_append] at htake hdrop
      dsimp only
      rw [List.cons_append, htake, hdrop]
      simp only [htake', hdrop']
      simpa [h.1] using hsome

/-- A mantissa starts with a digit or a point. -/
theorem IsMantissa.head?_ne {cs : List Char} (h : IsMantissa cs) {c : Char}
    (hc : cs.head? = some c) : c ≠ '-' ∧ c ≠ '+' := by
  cases h with
  | whole h => exact ⟨h.head?_ne hc (by decide), h.head?_ne hc (by decide)⟩
  | point h _ =>
    obtain ⟨x, w, rfl⟩ := List.exists_cons_of_ne_nil h.1
    have hw : (x :: w).head? = some c := hc
    exact ⟨h.head?_ne hw (by decide), h.head?_ne hw (by decide)⟩
  | fraction =>
    obtain rfl := Option.some.inj hc
    decide

theorem IsMantissa.ne_nil {cs : List Char} (h : IsMantissa cs) : cs ≠ [] := by
  cases h with
  | whole h => exact h.1
  | point h => simp
  | fraction => exact List.cons_ne_nil _ _

/-- The reader takes the decimal numerals. -/
theorem decimal?_isSome_iff {s : String} : (decimal? s).isSome = true ↔ IsDecimal s := by
  unfold decimal?
  dsimp only
  rw [unsignedDecimal?_isSome_iff]
  constructor
  · rintro ⟨mantissa, exponent, hmantissa, hexponent, hbody⟩
    obtain ⟨sign, hsign, hs⟩ := splitSign_eq s.toList
    exact ⟨sign, mantissa, exponent, hsign, hmantissa, hexponent, by rw [← hbody]; exact hs⟩
  · rintro ⟨sign, mantissa, exponent, hsign, hmantissa, hexponent, hs⟩
    refine ⟨mantissa, exponent, hmantissa, hexponent, ?_⟩
    rw [hs]
    refine splitSign_append hsign fun c hc => hmantissa.head?_ne ?_
    obtain ⟨x, w, rfl⟩ := List.exists_cons_of_ne_nil hmantissa.ne_nil
    exact hc

/-! ## Numbers as they are written -/

theorem isDigit_of_charIsDigit {c : Char} (h : c.isDigit = true) : isDigit c = true := by
  have hrange : '0' ≤ c ∧ c ≤ '9' := by simpa [Char.isDigit, Char.le_def] using h
  simp [isDigit, digit?, hrange]

/-- There are ten digits. -/
theorem mem_of_isDigit {c : Char} (h : isDigit c = true) : c ∈ "0123456789".toList := by
  have hrange : '0' ≤ c ∧ c ≤ '9' := by
    by_cases hrange : '0' ≤ c ∧ c ≤ '9'
    · exact hrange
    · rw [isDigit, digit?, if_neg hrange] at h
      cases h
  have hlow : 48 ≤ c.toNat := hrange.1
  have hhigh : c.toNat ≤ 57 := hrange.2
  have hall : (List.range 10).all
      (fun n => "0123456789".toList.contains (Char.ofNat (48 + n))) = true := by decide
  have hmem := List.all_eq_true.1 hall (c.toNat - 48) (List.mem_range.2 (by omega))
  rw [Nat.add_sub_cancel' hlow, Char.ofNat_toNat] at hmem
  exact List.contains_iff_mem.1 hmem

/-- A number is written in digits. -/
theorem isDigit_of_mem_toString {n : Nat} {c : Char} (h : c ∈ (toString n).toList) :
    isDigit c = true := by
  have hmem : c ∈ Nat.toDigits 10 n := by simpa [Nat.repr] using h
  exact isDigit_of_charIsDigit (Nat.isDigit_of_mem_toDigits (by decide) (by decide) hmem)

/-- A number is written as a decimal numeral. -/
theorem isDecimal_toString (n : Nat) : IsDecimal (toString n) := by
  have hdigits : IsDigits (toString n).toList :=
    ⟨by simp [Nat.repr], List.all_eq_true.2 fun _ hc => isDigit_of_mem_toString hc⟩
  exact ⟨[], _, [], by simp [IsSign], .whole hdigits, .nothing, (List.append_nil _).symm⟩

/-- Numbers behind one text are told apart. -/
theorem eq_of_append_toString {lead : String} {i j : Nat}
    (h : lead ++ toString i = lead ++ toString j) : i = j := by
  have hdigits : (toString i).toList = (toString j).toList := by
    have hlists : (lead ++ toString i).toList = (lead ++ toString j).toList :=
      congrArg String.toList h
    rw [String.toList_append, String.toList_append] at hlists
    exact List.append_cancel_left hlists
  have hread : ∀ k : Nat, Nat.ofDigitChars 10 (toString k).toList 0 = k := by
    intro k
    rw [Nat.toString_eq_repr, Nat.toList_repr, Nat.ofDigitChars_ten_toDigits]
  rw [← hread i, hdigits, hread j]

end ResourceQuery.Number

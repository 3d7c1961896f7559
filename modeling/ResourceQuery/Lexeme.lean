import ResourceQuery.Fault

set_option autoImplicit false

/-!
# Lexemes

The smallest stretches of a fragment: parentheses, commas, equals signs, quoted
stretches and bare stretches, each with the blanks before it.  Blanks and
lexemes together make up the source, up to the first place where no lexeme
starts.
-/

namespace ResourceQuery

/-- The two quote characters. -/
inductive Quote where
  | single
  | double
  deriving DecidableEq, Repr, Inhabited

/-- The character of a quote. -/
def Quote.char : Quote → Char
  | .single => '\''
  | .double => '"'

/-- The quote that a character is. -/
def Quote.ofChar? (c : Char) : Option Quote :=
  if c = '\'' then some .single else if c = '"' then some .double else none

namespace Lexeme

/-- Blanks that divide lexemes. -/
def isGap (c : Char) : Bool :=
  c == ' ' || c == '\t' || c == '\r' || c == '\n' || c == '\x0c'

/-- Characters that no bare stretch holds unescaped. -/
def isReserved (c : Char) : Bool :=
  c == '(' || c == ')' || c == ',' || c == '=' || c == '\'' || c == '"' || c == '\\'

/-- What a lexeme is. -/
inductive Kind where
  | opening
  | closing
  | comma
  | equals
  | quoted (quote : Quote)
  | bare
  deriving DecidableEq, Repr, Inhabited

end Lexeme

/-- A lexeme: the blanks before it and the characters it spans. -/
structure Lexeme where
  kind : Lexeme.Kind
  gap : List Char
  body : List Char
  deriving DecidableEq, Repr, Inhabited

namespace Lexeme

/-- The stretch up to and with the closing quote.  A backslash takes the next
character with it, which must not be a line feed. -/
def quotedStretch (q : Char) : List Char → Option (List Char × List Char)
  | [] => none
  | '\\' :: cs =>
    match cs with
    | [] => none
    | c :: rest =>
      if c = '\n' then none
      else (quotedStretch q rest).map fun (body, rest) => ('\\' :: c :: body, rest)
  | c :: cs =>
    if c = q then some ([c], cs)
    else (quotedStretch q cs).map fun (body, rest) => (c :: body, rest)

/-- The longest bare stretch: unreserved characters and escaped characters. -/
def bareStretch : List Char → List Char × List Char
  | [] => ([], [])
  | '\\' :: cs =>
    match cs with
    | [] => ([], ['\\'])
    | c :: rest =>
      if c = '\n' then ([], '\\' :: c :: rest)
      else
        let (body, rest) := bareStretch rest
        ('\\' :: c :: body, rest)
  | c :: cs =>
    if isGap c || isReserved c then ([], c :: cs)
    else
      let (body, rest) := bareStretch cs
      (c :: body, rest)

/-- The first lexeme of characters that do not start with a blank, as its kind,
its characters and the rest. -/
def first? : List Char → Option (Kind × List Char × List Char)
  | [] => none
  | c :: cs =>
    if c = '(' then some (.opening, [c], cs)
    else if c = ')' then some (.closing, [c], cs)
    else if c = ',' then some (.comma, [c], cs)
    else if c = '=' then some (.equals, [c], cs)
    else match Quote.ofChar? c with
      | some q => (quotedStretch c cs).map fun (body, rest) => (.quoted q, c :: body, rest)
      | none =>
        match bareStretch (c :: cs) with
        | ([], _) => none
        | (body, rest) => some (.bare, body, rest)

theorem quotedStretch_eq {q : Char} {cs body rest : List Char}
    (h : quotedStretch q cs = some (body, rest)) : body ++ rest = cs ∧ body ≠ [] := by
  fun_induction quotedStretch q cs generalizing body rest with
  | case1 => simp at h
  | case2 => simp at h
  | case3 => simp at h
  | case4 c tail _ ih =>
    obtain ⟨⟨b, r⟩, hb, he⟩ := Option.map_eq_some_iff.1 h
    simp only [Prod.mk.injEq] at he
    obtain ⟨rfl, rfl⟩ := he
    simp [(ih hb).1]
  | case5 =>
    simp only [Option.some.injEq, Prod.mk.injEq] at h
    obtain ⟨rfl, rfl⟩ := h
    simp
  | case6 c tail _ _ ih =>
    obtain ⟨⟨b, r⟩, hb, he⟩ := Option.map_eq_some_iff.1 h
    simp only [Prod.mk.injEq] at he
    obtain ⟨rfl, rfl⟩ := he
    simp [(ih hb).1]

theorem bareStretch_append (cs : List Char) :
    (bareStretch cs).1 ++ (bareStretch cs).2 = cs := by
  fun_induction bareStretch cs with
  | case1 => rfl
  | case2 => rfl
  | case3 => rfl
  | case4 c rest _ body rest' heq ih => simpa [heq] using ih
  | case5 => rfl
  | case6 c cs _ _ body rest heq ih => simpa [heq] using ih

/-- A lexeme and the rest make up the characters, and the lexeme is not empty. -/
theorem first?_eq {cs body rest : List Char} {kind : Kind}
    (h : first? cs = some (kind, body, rest)) : body ++ rest = cs ∧ body ≠ [] := by
  cases cs with
  | nil => simp [first?] at h
  | cons c cs =>
    rw [first?] at h
    iterate 4
      split at h
      · simp only [Option.some.injEq, Prod.mk.injEq] at h
        obtain ⟨-, rfl, rfl⟩ := h
        simp
    split at h
    · obtain ⟨⟨b, r⟩, hb, he⟩ := Option.map_eq_some_iff.1 h
      simp only [Prod.mk.injEq] at he
      obtain ⟨-, rfl, rfl⟩ := he
      simp [(quotedStretch_eq hb).1]
    · have happ := bareStretch_append (c :: cs)
      split at h
      · simp at h
      · next body' rest' hne heq =>
        simp only [Option.some.injEq, Prod.mk.injEq] at h
        obtain ⟨-, rfl, rfl⟩ := h
        rw [heq] at happ
        exact ⟨happ, fun hb => hne (by simp [hb])⟩

/-- An odd run of backslashes at the end leaves the last one escaping nothing. -/
def hasOpenEscape (cs : List Char) : Bool :=
  (cs.reverse.takeWhile (· == '\\')).length % 2 == 1

/-- Why no lexeme starts at `cs`, which stands at the byte offset `position`. -/
def faultAt (position : Nat) (cs : List Char) : LexicalFault :=
  match cs with
  | c :: _ =>
    if (Quote.ofChar? c).isSome && !hasOpenEscape cs then .unterminatedQuote position
    else .danglingEscape position
  | [] => .danglingEscape position

/-- The number of bytes that the characters take in UTF-8. -/
def byteLength : List Char → Nat
  | [] => 0
  | c :: cs => c.utf8Size + byteLength cs

/-- All lexemes from the byte offset `position` on, up to the end of the
characters or to the first place where no lexeme starts. -/
def scan (position : Nat) (cs : List Char) : List Lexeme × Option LexicalFault :=
  let gap := cs.takeWhile isGap
  match _hcs : cs.dropWhile isGap with
  | [] => ([], none)
  | c :: tail =>
    let start := position + byteLength gap
    match _h : first? (c :: tail) with
    | none => ([], some (faultAt start (c :: tail)))
    | some (kind, body, rest) =>
      let (lexemes, fault) := scan (start + byteLength body) rest
      (⟨kind, gap, body⟩ :: lexemes, fault)
termination_by cs.length
decreasing_by
  obtain ⟨happ, hne⟩ := first?_eq _h
  have hlen : (c :: tail).length ≤ cs.length := by
    rw [← _hcs]; exact (List.dropWhile_suffix isGap).length_le
  have hsum := congrArg List.length happ
  rw [List.length_append] at hsum
  have hpos : 0 < body.length := List.length_pos_iff.2 hne
  omega

end Lexeme

end ResourceQuery

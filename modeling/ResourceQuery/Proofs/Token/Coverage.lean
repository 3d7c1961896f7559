import ResourceQuery.Proofs.Outcome
import ResourceQuery.Proofs.Token.LongestMatch

set_option autoImplicit false

/-!
# Tokens: how they lie over the source

The tokens of a source stand one after the other, each over the characters that
it was read from, and between them is nothing but blanks and the commas outside
calls.  `Tiles` says this from left to right, with the depth of open parentheses
in hand; what holds of every token and of every character left out is read off
from it.

The induction goes along the lexemes with the text under way in hand:
`Run.Reaches` says which characters it stands over, until it is emitted as a
token.
-/

namespace ResourceQuery

theorem Lexeme.byteLength_pos {cs : List Char} (h : cs ≠ []) : 0 < byteLength cs := by
  cases cs with
  | nil => exact absurd rfl h
  | cons c cs =>
    rw [byteLength]
    have := c.utf8Size_pos
    omega

namespace Token

open Lexeme (isGap byteLength)

/-! ## What a token spans, and what it does to the depth -/

/-- The characters that a token of the kind stands over.  A text is what they
stand for, without the quotes if it has any. -/
inductive Spelled : Kind → List Char → Prop where
  | opening : Spelled .opening ['(']
  | closing : Spelled .closing [')']
  | comma : Spelled .comma [',']
  | equals : Spelled .equals ['=']
  | bare (chars : List Char) : Spelled (.text (String.ofList (unescape chars)) none) chars
  | quoted (q : Quote) (inner : List Char) :
      Spelled (.text (String.ofList (unescape inner)) (some q)) (q.char :: (inner ++ [q.char]))

/-- A token of the kind may stand at the one depth and leaves the other. -/
inductive Moves : Nat → Kind → Nat → Prop where
  | opening (depth : Nat) : Moves depth .opening (depth + 1)
  | closing (depth : Nat) : Moves (depth + 1) .closing depth
  | comma (depth : Nat) : Moves (depth + 1) .comma (depth + 1)
  | equals : Moves 0 .equals 0
  | text (depth : Nat) (text : String) (quote : Option Quote) : Moves depth (.text text quote) depth

/-- The number of opening parentheses. -/
def openings (tokens : List Token) : Nat := tokens.countP fun t => t.kind = .opening

/-- The number of closing parentheses. -/
def closings (tokens : List Token) : Nat := tokens.countP fun t => t.kind = .closing

/-- The depth keeps account of the parentheses. -/
theorem Moves.balance {depth after : Nat} {kind : Kind} (h : Moves depth kind after)
    (start stop : Nat) {tokens : List Token} {final : Nat}
    (hrest : final + closings tokens = after + openings tokens) :
    final + closings (⟨kind, start, stop⟩ :: tokens) =
      depth + openings (⟨kind, start, stop⟩ :: tokens) := by
  simp only [closings, openings, List.countP_cons] at hrest ⊢
  cases h <;> simp <;> omega

/-! ## Tokens over characters -/

/-- The tokens lie over the characters, which start at the byte offset with the
number of parentheses open.  Only blanks, and commas where no parenthesis is
open, are left out. -/
inductive Tiles : Nat → Nat → List Char → List Token → Prop where
  | nil (position depth : Nat) : Tiles position depth [] []
  | skip {position depth : Nat} {c : Char} {cs : List Char} {tokens : List Token}
      (hc : isGap c = true ∨ c = ',' ∧ depth = 0)
      (h : Tiles (position + c.utf8Size) depth cs tokens) : Tiles position depth (c :: cs) tokens
  | token {position depth after : Nat} {kind : Kind} {body cs : List Char} {tokens : List Token}
      (hspelled : Spelled kind body) (hne : body ≠ []) (hmoves : Moves depth kind after)
      (h : Tiles (position + byteLength body) after cs tokens) :
      Tiles position depth (body ++ cs) (⟨kind, position, position + byteLength body⟩ :: tokens)

namespace Tiles

variable {position depth : Nat} {cs : List Char} {tokens : List Token}

theorem gap {gap : List Char} (hgap : ∀ c ∈ gap, isGap c = true)
    (h : Tiles (position + byteLength gap) depth cs tokens) :
    Tiles position depth (gap ++ cs) tokens := by
  induction gap generalizing position with
  | nil => exact h
  | cons c gap ih =>
    refine .skip (.inl (hgap c List.mem_cons_self)) (ih (fun d hd => hgap d (.tail c hd)) ?_)
    rwa [Nat.add_assoc]

/-- Each token stands over a stretch of the characters that spells it. -/
theorem spans (h : Tiles position depth cs tokens) : ∀ t ∈ tokens, ∃ before body after,
    cs = before ++ body ++ after ∧ body ≠ [] ∧ t.start = position + byteLength before ∧
      t.stop = position + byteLength (before ++ body) ∧ Spelled t.kind body := by
  induction h with
  | nil => exact fun t ht => absurd ht List.not_mem_nil
  | @skip position depth c cs tokens hc _ ih =>
    intro t ht
    obtain ⟨before, body, after, rfl, hne, hstart, hstop, hspelled⟩ := ih t ht
    refine ⟨c :: before, body, after, rfl, hne, ?_, ?_, hspelled⟩
    · rw [hstart, byteLength, Nat.add_assoc]
    · rw [hstop, List.cons_append, byteLength, Nat.add_assoc]
  | @token position depth after kind head cs tokens hspelled hne _ _ ih =>
    intro t ht
    rcases List.mem_cons.1 ht with rfl | ht
    · exact ⟨[], head, cs, rfl, hne, rfl, rfl, hspelled⟩
    · obtain ⟨before, body, after, rfl, hne, hstart, hstop, hspelled⟩ := ih t ht
      refine ⟨head ++ before, body, after, by simp, hne, ?_, ?_, hspelled⟩
      · rw [hstart, byteLength_append, Nat.add_assoc]
      · rw [hstop, List.append_assoc, byteLength_append head, Nat.add_assoc]

theorem le_start (h : Tiles position depth cs tokens) {t : Token} (ht : t ∈ tokens) :
    position ≤ t.start ∧ t.start < t.stop := by
  obtain ⟨before, body, after, _, hne, hstart, hstop, _⟩ := h.spans t ht
  have hpos := Lexeme.byteLength_pos hne
  rw [byteLength_append] at hstop
  omega

/-- Each token starts where the ones before it have stopped, or later. -/
theorem ordered (h : Tiles position depth cs tokens) :
    tokens.Pairwise fun a b => a.start < b.start ∧ a.stop ≤ b.start := by
  induction h with
  | nil => exact .nil
  | skip _ _ ih => exact ih
  | token _ hne _ h ih =>
    refine .cons (fun t ht => ?_) ih
    have hpos := Lexeme.byteLength_pos hne
    have hle := (h.le_start ht).1
    exact ⟨by dsimp only; omega, hle⟩

/-- A character is under a token, or it is a blank, or it is a comma where no
parenthesis is open: the tokens that stop before it close as many as they and
the depth open. -/
theorem outside (h : Tiles position depth cs tokens) : ∀ (before : List Char) (c : Char)
    (after : List Char), cs = before ++ c :: after →
    (∃ t ∈ tokens, t.start ≤ position + byteLength before ∧
      position + byteLength before < t.stop) ∨
    isGap c = true ∨
    c = ',' ∧ closings (tokens.filter (·.stop ≤ position + byteLength before)) =
      depth + openings (tokens.filter (·.stop ≤ position + byteLength before)) := by
  induction h with
  | nil =>
    intro before c after heq
    simp at heq
  | @skip position depth d cs tokens hd h ih =>
    intro before c after heq
    rcases List.cons_eq_append_iff.1 heq with ⟨rfl, hhead⟩ | ⟨before', rfl, hrest⟩
    · cases hhead
      rcases hd with hgap | ⟨rfl, rfl⟩
      · exact .inr (.inl hgap)
      · -- no token stops before the first character
        have hnone : tokens.filter (·.stop ≤ position + byteLength []) = [] := by
          rw [List.filter_eq_nil_iff]
          intro t ht hstop
          have hstart := h.le_start ht
          have hstop := of_decide_eq_true hstop
          rw [byteLength] at hstop
          omega
        rw [hnone]
        exact .inr (.inr ⟨rfl, rfl⟩)
    · have hat : position + byteLength (d :: before') =
          position + d.utf8Size + byteLength before' := by
        rw [byteLength, Nat.add_assoc]
      rw [hat]
      exact ih before' c after hrest
  | @token position depth inner kind body cs tokens hspelled hne hmoves h ih =>
    intro before c after heq
    -- the character stands behind the first token, or it is one of the token's own
    have hcases : (∃ before', before = body ++ before' ∧ cs = before' ++ c :: after) ∨
        ∃ tail, body = before ++ c :: tail := by
      rcases List.append_eq_append_iff.1 heq with hlater | ⟨tail, rfl, htail⟩
      · exact .inl hlater
      · cases tail with
        | nil => exact .inl ⟨[], by simp, htail.symm⟩
        | cons d tail =>
          cases htail
          exact .inr ⟨tail, rfl⟩
    rcases hcases with ⟨before', rfl, hrest⟩ | ⟨tail, rfl⟩
    · have hat : position + byteLength (body ++ before') =
          position + byteLength body + byteLength before' := by
        rw [byteLength_append, Nat.add_assoc]
      rw [hat]
      rcases ih before' c after hrest with ⟨t, ht, hunder⟩ | hgap | ⟨rfl, hbalance⟩
      · exact .inl ⟨t, .tail _ ht, hunder⟩
      · exact .inr (.inl hgap)
      · refine .inr (.inr ⟨rfl, ?_⟩)
        rw [List.filter_cons_of_pos (by simp)]
        have hcount := hmoves.balance position (position + byteLength body)
          ((Nat.zero_add _).trans hbalance)
        rwa [Nat.zero_add] at hcount
    · refine .inl ⟨_, List.mem_cons_self, Nat.le_add_right _ _, ?_⟩
      have hpos := c.utf8Size_pos
      dsimp only
      rw [byteLength_append, byteLength]
      omega

/-- What is left of the tokens lies over what is left of the characters, at the
depth that the parentheses before have led to. -/
theorem split (earlier : List Token) : ∀ {position depth : Nat} {cs : List Char}
    {later : List Token}, Tiles position depth cs (earlier ++ later) → ∃ position' depth' cs',
    Tiles position' depth' cs' later ∧ depth' + closings earlier = depth + openings earlier := by
  induction earlier with
  | nil => exact fun h => ⟨_, _, _, h, rfl⟩
  | cons t earlier ih =>
    intro position depth cs later h
    generalize htokens : t :: earlier ++ later = tokens at h
    induction h with
    | nil => cases htokens
    | skip _ _ ih' => exact ih' htokens
    | token _ _ hmoves h _ =>
      cases htokens
      obtain ⟨position', depth', cs', hlater, hbalance⟩ := ih h
      exact ⟨position', depth', cs', hlater, hmoves.balance _ _ hbalance⟩

/-- The first token is one that may stand at the depth. -/
theorem moves_head {t : Token} (h : Tiles position depth cs (t :: tokens)) :
    ∃ after, Moves depth t.kind after := by
  generalize htokens : t :: tokens = tokens' at h
  induction h with
  | nil => cases htokens
  | skip _ _ ih => exact ih htokens
  | token _ _ hmoves _ _ =>
    cases htokens
    exact ⟨_, hmoves⟩

/-- Each token is one that may stand at the depth that the parentheses before it have led to. -/
theorem moves {t : Token} {earlier later : List Token}
    (h : Tiles position depth cs (earlier ++ t :: later)) : ∃ depth' after,
    Moves depth' t.kind after ∧ depth' + closings earlier = depth + openings earlier := by
  obtain ⟨_, depth', _, hlater, hbalance⟩ := h.split earlier
  obtain ⟨after, hmoves⟩ := hlater.moves_head
  exact ⟨depth', after, hmoves, hbalance⟩

end Tiles

/-! ## The tokens of a source -/

/-- Where the text under way starts, or else where the next character stands. -/
def Run.origin (run : Option Run) (position : Nat) : Nat :=
  match run with
  | some r => r.start
  | none => position

/-- The characters of the text under way. -/
def Run.held (run : Option Run) : List Char :=
  match run with
  | some r => r.chars
  | none => []

/-- The text under way stands over its characters, up to the position. -/
structure Run.Reaches (r : Run) (position : Nat) : Prop where
  nonempty : r.chars ≠ []
  stop_eq : r.stop = position
  position_eq : position = r.start + byteLength r.chars

theorem Run.reaches_extend {run : Option Run} {position : Nat}
    (hrun : ∀ r ∈ run, r.Reaches position) (gap : List Char) {body : List Char}
    (hne : body ≠ []) : (Run.extend run position gap body).Reaches
      (position + byteLength gap + byteLength body) := by
  cases run with
  | none => exact ⟨hne, rfl, rfl⟩
  | some r =>
    refine ⟨?_, rfl, ?_⟩
    · show r.chars ++ gap ++ body ≠ []
      simp [hne]
    · show position + byteLength gap + byteLength body =
        r.start + byteLength (r.chars ++ gap ++ body)
      rw [(hrun r rfl).position_eq, byteLength_append, byteLength_append]
      omega

/-- The text under way comes before the tokens after it. -/
theorem Tiles.emit {run : Option Run} {position depth : Nat} {cs : List Char} {s : Stream}
    (hrun : ∀ r ∈ run, r.Reaches position) (h : Tiles position depth cs s.1) :
    Tiles (Run.origin run position) depth (Run.held run ++ cs) (Run.emit run s).1 := by
  cases run with
  | none => exact h
  | some r =>
    obtain ⟨hne, hstop, hposition⟩ := hrun r rfl
    have htoken : r.token =
        ⟨.text (String.ofList (unescape r.chars)) none, r.start, r.start + byteLength r.chars⟩ := by
      rw [Run.token, hstop, hposition]
    show Tiles r.start depth (r.chars ++ cs) (r.token :: s.1)
    rw [htoken]
    rw [hposition] at h
    exact .token (.bare r.chars) hne (.text depth _ none) h

/-- A lexeme that is a token by itself. -/
theorem Tiles.lexeme {run : Option Run} {position depth after : Nat} {gap body rest : List Char}
    {kind : Kind} {s : Stream} (hrun : ∀ r ∈ run, r.Reaches position)
    (hgap : ∀ c ∈ gap, isGap c = true) (hspelled : Spelled kind body) (hne : body ≠ [])
    (hmoves : Moves depth kind after)
    (h : Tiles (position + byteLength gap + byteLength body) after rest s.1) :
    Tiles (Run.origin run position) depth (Run.held run ++ (gap ++ (body ++ rest)))
      (Run.emit run (s.cons ⟨kind, position + byteLength gap,
        position + byteLength gap + byteLength body⟩)).1 :=
  .emit hrun (.gap hgap (.token hspelled hne hmoves h))

/-- What is read without a fault lies over the characters, those of the text
under way included. -/
theorem tiles_streamFrom (position : Nat) (cs : List Char) : ∀ (depth : Nat) (run : Option Run),
    (∀ r ∈ run, r.Reaches position) → (streamFrom position depth run cs).2 = none →
      Tiles (Run.origin run position) depth (Run.held run ++ cs)
        (streamFrom position depth run cs).1 := by
  induction position, cs using Lexeme.scan_induction with
  | blank position gap hgap =>
    intro depth run hrun _
    rw [streamFrom_blank hgap]
    have hblank : Tiles position depth gap [] := by
      rw [← List.append_nil gap]
      exact .gap hgap (.nil _ depth)
    exact .emit hrun hblank
  | fault position gap c cs hgap hc hfirst =>
    intro depth run hrun hnone
    rw [streamFrom_fault hgap hc hfirst] at hnone
    cases hnone
  | lexeme position gap cs kind body rest hgap hfirst ih =>
    intro depth run hrun hnone
    obtain ⟨rfl, hmatches, _⟩ := Lexeme.first?_eq_some_iff.1 hfirst
    have hne := hmatches.ne_nil
    rw [streamFrom_lexeme position depth run gap hgap hfirst] at hnone ⊢
    -- a lexeme that goes into the text under way
    have hgoes : (streamFrom (position + byteLength gap + byteLength body) depth
          (some (Run.extend run position gap body)) rest).2 = none →
        Tiles (Run.origin run position) depth (Run.held run ++ (gap ++ (body ++ rest)))
          (streamFrom (position + byteLength gap + byteLength body) depth
            (some (Run.extend run position gap body)) rest).1 := by
      intro hnone
      have htiles := ih depth (some (Run.extend run position gap body))
        (fun r hr => by cases hr; exact Run.reaches_extend hrun gap hne) hnone
      cases run with
      | none =>
        show Tiles position depth (gap ++ (body ++ rest)) _
        exact .gap hgap htiles
      | some r =>
        have hheld : r.chars ++ (gap ++ (body ++ rest)) = r.chars ++ gap ++ body ++ rest := by simp
        show Tiles r.start depth (r.chars ++ (gap ++ (body ++ rest))) _
        rw [hheld]
        exact htiles
    -- a lexeme that ends it
    have hnext := fun after => ih after none (by simp)
    cases kind with
    | bare => exact hgoes hnone
    | equals =>
      cases depth with
      | zero =>
        rw [Run.emit_snd] at hnone
        obtain rfl : body = ['='] := hmatches
        exact .lexeme hrun hgap .equals hne .equals (hnext 0 hnone)
      | succ depth => exact hgoes hnone
    | comma =>
      obtain rfl : body = [','] := hmatches
      cases depth with
      | zero =>
        rw [Run.emit_snd] at hnone
        exact .emit hrun (.gap hgap (.skip (.inr ⟨rfl, rfl⟩) (hnext 0 hnone)))
      | succ depth =>
        rw [Run.emit_snd] at hnone
        exact .lexeme hrun hgap .comma hne (.comma depth) (hnext (depth + 1) hnone)
    | opening =>
      obtain rfl : body = ['('] := hmatches
      rw [Run.emit_snd] at hnone
      exact .lexeme hrun hgap .opening hne (.opening depth) (hnext (depth + 1) hnone)
    | closing =>
      obtain rfl : body = [')'] := hmatches
      cases depth with
      | zero =>
        rw [Run.emit_snd] at hnone
        cases hnone
      | succ depth =>
        rw [Run.emit_snd] at hnone
        exact .lexeme hrun hgap .closing hne (.closing depth) (hnext depth hnone)
    | quoted q =>
      obtain ⟨inner, rfl, _⟩ := hmatches
      have hinner : unquoted (q.char :: (inner ++ [q.char])) = inner := by simp [unquoted]
      rw [Run.emit_snd] at hnone
      dsimp only at hnone ⊢
      rw [hinner]
      exact .lexeme hrun hgap (.quoted q inner) hne (.text depth _ (some q)) (hnext depth hnone)

/-- The tokens of a source lie over all of its characters. -/
theorem tiles_tokenize {source : String} {tokens : List Token}
    (h : tokenize source = .ok tokens) : Tiles 0 0 source.toList tokens := by
  have hstream := (tokenize_eq_ok_iff source tokens).1 h
  rw [stream_eq_streamFrom] at hstream
  have htiles := tiles_streamFrom 0 source.toList 0 none (by simp) (by rw [hstream])
  rwa [hstream] at htiles

/-- The tokens cover the source. -/
structure Covers (source : String) (tokens : List Token) : Prop where
  /-- Each token spans a stretch of whole characters of the source, not an empty
  one, and is what these characters spell. -/
  spans : ∀ t ∈ tokens, ∃ before body after : String, source = before ++ body ++ after ∧
    body ≠ "" ∧ t.start = before.utf8ByteSize ∧ t.stop = (before ++ body).utf8ByteSize ∧
    Spelled t.kind body.toList
  /-- The spans stand in order and do not overlap. -/
  ordered : tokens.Pairwise fun a b => a.start < b.start ∧ a.stop ≤ b.start
  /-- Outside the spans there are blanks only, and commas after as many closing
  as opening parentheses. -/
  outside : ∀ (before : String) (c : Char) (after : String),
    source = before ++ String.singleton c ++ after →
    (∀ t ∈ tokens, ¬ (t.start ≤ before.utf8ByteSize ∧ before.utf8ByteSize < t.stop)) →
    c ∈ [' ', '\t', '\r', '\n', '\x0c'] ∨
    c = ',' ∧ closings (tokens.filter (·.stop ≤ before.utf8ByteSize)) =
      openings (tokens.filter (·.stop ≤ before.utf8ByteSize))
  /-- No more parentheses are closed than have been opened. -/
  level : ∀ earlier later : List Token, tokens = earlier ++ later →
    closings earlier ≤ openings earlier
  /-- Commas stand inside calls. -/
  commas : ∀ (earlier : List Token) (t : Token) (later : List Token),
    tokens = earlier ++ t :: later → t.kind = .comma → closings earlier < openings earlier
  /-- Equals signs stand outside calls. -/
  equals : ∀ (earlier : List Token) (t : Token) (later : List Token),
    tokens = earlier ++ t :: later → t.kind = .equals → closings earlier = openings earlier

theorem mem_gaps_of_isGap {c : Char} (h : isGap c = true) :
    c ∈ [' ', '\t', '\r', '\n', '\x0c'] := by
  simpa [isGap, or_assoc] using h

/-- Nothing of a source is lost but what divides its tokens. -/
theorem tokenize_covers (source : String) (tokens : List Token)
    (h : tokenize source = .ok tokens) : Covers source tokens := by
  have htiles := tiles_tokenize h
  refine ⟨fun t ht => ?_, htiles.ordered, fun before c after hsource hclear => ?_,
    fun earlier later htokens => ?_, fun earlier t later htokens hkind => ?_,
    fun earlier t later htokens hkind => ?_⟩
  · obtain ⟨before, body, after, hsource, hne, hstart, hstop, hspelled⟩ := htiles.spans t ht
    refine ⟨String.ofList before, String.ofList body, String.ofList after, ?_, ?_, ?_, ?_, ?_⟩
    · rw [← String.ofList_append, ← String.ofList_append, ← hsource, String.ofList_toList]
    · intro hempty
      exact hne (by simpa using congrArg String.toList hempty)
    · rw [hstart, Nat.zero_add, ← Lexeme.byteLength_toList, String.toList_ofList]
    · rw [hstop, Nat.zero_add, ← Lexeme.byteLength_toList, ← String.ofList_append,
        String.toList_ofList]
    · rwa [String.toList_ofList]
  · have hchars : source.toList = before.toList ++ c :: after.toList := by
      rw [hsource]
      simp
    have hcases := htiles.outside before.toList c after.toList hchars
    rw [Nat.zero_add, Lexeme.byteLength_toList] at hcases
    rcases hcases with ⟨t, ht, hunder⟩ | hgap | ⟨hc, hbalance⟩
    · exact absurd hunder (hclear t ht)
    · exact .inl (mem_gaps_of_isGap hgap)
    · rw [Nat.zero_add] at hbalance
      exact .inr ⟨hc, hbalance⟩
  · rw [htokens] at htiles
    obtain ⟨_, depth, _, _, hbalance⟩ := htiles.split earlier
    omega
  · rw [htokens] at htiles
    obtain ⟨depth, after, hmoves, hbalance⟩ := htiles.moves
    rw [hkind] at hmoves
    cases hmoves
    omega
  · rw [htokens] at htiles
    obtain ⟨depth, after, hmoves, hbalance⟩ := htiles.moves
    rw [hkind] at hmoves
    cases hmoves
    omega

/-- A text over two stretches, quotes and parentheses inside quotes, a character
of two bytes, and commas inside and outside a call. -/
theorem tokenize_covers_mixed_source : ∃ tokens,
    tokenize "in(né b, 'x\\')=')=1 ,2" = .ok tokens ∧ tokens.length = 9 ∧
      Covers "in(né b, 'x\\')=')=1 ,2" tokens := by
  have htokens : tokenize "in(né b, 'x\\')=')=1 ,2" = .ok [⟨.text "in" none, 0, 2⟩,
      ⟨.opening, 2, 3⟩, ⟨.text "né b" none, 3, 8⟩, ⟨.comma, 8, 9⟩,
      ⟨.text "x')=" (some .single), 10, 17⟩, ⟨.closing, 17, 18⟩, ⟨.equals, 18, 19⟩,
      ⟨.text "1" none, 19, 20⟩, ⟨.text "2" none, 22, 23⟩] :=
    eq_ok_of_toOption (by decide +kernel)
  exact ⟨_, htokens, rfl, tokenize_covers _ _ htokens⟩

end Token
end ResourceQuery

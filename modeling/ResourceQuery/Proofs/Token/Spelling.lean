import ResourceQuery.Token

set_option autoImplicit false

/-!
# Tokens: reading from left to right

A bare text may be read one character or escape at a time, although the lexemes
of a source are as long as they can be: the rest of a stretch is the next lexeme
of the same run.  `Spells` says which tokens a stretch of characters is read as,
wherever it stands, and there is one rule for each thing that can be written.
-/

namespace ResourceQuery

namespace Lexeme

theorem isReserved_backslash : isReserved '\\' = true := by decide

/-- The steps of a bare stretch: an unreserved character, or an escape. -/
inductive Step : List Char → Prop where
  | plain {c : Char} (hgap : isGap c = false) (hreserved : isReserved c = false) : Step [c]
  | escape {c : Char} (hc : c ≠ '\n') : Step ['\\', c]

/-- A bare stretch goes on over each step. -/
theorem bareStretch_step {u : List Char} (hu : Step u) (cs : List Char) :
    bareStretch (u ++ cs) = (u ++ (bareStretch cs).1, (bareStretch cs).2) := by
  cases hu with
  | @plain c hgap hreserved =>
    have hc : c ≠ '\\' := by rintro rfl; exact absurd isReserved_backslash (by simp [hreserved])
    rw [List.singleton_append, bareStretch]
    · simp [hgap, hreserved]
    · intro h; exact hc h
  | @escape c hc =>
    show bareStretch ('\\' :: c :: cs) = _
    rw [bareStretch]
    simp [hc]

/-- A bare stretch starts with an unreserved character or an escape. -/
theorem head_of_bareStretch {c : Char} {cs : List Char} (h : (bareStretch (c :: cs)).1 ≠ []) :
    c = '\\' ∨ (isGap c = false ∧ isReserved c = false) := by
  by_cases hc : c = '\\'
  · exact Or.inl hc
  · rw [bareStretch] at h
    · by_cases hstop : (isGap c || isReserved c) = true
      · simp [hstop] at h
      · exact Or.inr (by simpa using hstop)
    · intro h; exact hc h

/-- A bare stretch that is not empty is the first lexeme. -/
theorem first?_of_bareStretch {cs : List Char} (h : (bareStretch cs).1 ≠ []) :
    first? cs = some (.bare, (bareStretch cs).1, (bareStretch cs).2) := by
  cases cs with
  | nil => exact absurd rfl h
  | cons c cs =>
    have hhead := head_of_bareStretch h
    obtain ⟨p, hp⟩ : ∃ p, bareStretch (c :: cs) = p := ⟨_, rfl⟩
    rw [hp] at h ⊢
    obtain ⟨_ | ⟨d, body⟩, rest⟩ := p
    · exact absurd rfl h
    · rcases hhead with rfl | ⟨_, hreserved⟩
      · simp [first?, Quote.ofChar?, hp]
      · simp only [isReserved, Bool.or_eq_false_iff, beq_eq_false_iff_ne] at hreserved
        simp [first?, Quote.ofChar?, hreserved, hp]

/-- No lexeme starts with a blank. -/
theorem first?_gap {c : Char} (hgap : isGap c = true) (cs : List Char) :
    first? (c :: cs) = none := by
  have hchars : c = ' ' ∨ c = '\t' ∨ c = '\r' ∨ c = '\n' ∨ c = '\x0c' := by
    simpa [isGap, or_assoc] using hgap
  rcases hchars with rfl | rfl | rfl | rfl | rfl <;>
    simp [first?, Quote.ofChar?, bareStretch, isGap]

/-- The first lexeme after some blanks. -/
theorem scan_lexeme {cs body rest : List Char} {kind : Kind} (position : Nat) (gap : List Char)
    (hgap : ∀ c ∈ gap, isGap c = true) (hfirst : first? cs = some (kind, body, rest)) :
    scan position (gap ++ cs) =
      (⟨kind, gap, body⟩ :: (scan (position + byteLength gap + byteLength body) rest).1,
        (scan (position + byteLength gap + byteLength body) rest).2) := by
  have hhead : cs.takeWhile isGap = [] ∧ cs.dropWhile isGap = cs := by
    cases cs with
    | nil => exact ⟨rfl, rfl⟩
    | cons c cs =>
      have hc : isGap c = false := by
        cases hc : isGap c with
        | false => rfl
        | true => rw [first?_gap hc] at hfirst; cases hfirst
      simp [hc]
  have htake : (gap ++ cs).takeWhile isGap = gap := by
    rw [List.takeWhile_append_of_pos hgap, hhead.1, List.append_nil]
  have hdrop : (gap ++ cs).dropWhile isGap = cs := by
    rw [List.dropWhile_append_of_pos hgap, hhead.2]
  rw [scan, htake]
  split
  · next hnil =>
    rw [hdrop] at hnil
    rw [hnil] at hfirst
    cases hfirst
  · next c tail hcons =>
    rw [hdrop] at hcons
    rw [hcons] at hfirst
    split
    · next hnone => rw [hnone] at hfirst; cases hfirst
    · next kind' body' rest' hsome =>
      rw [hsome] at hfirst
      cases hfirst
      rfl

/-- Characters without lexemes. -/
theorem scan_nil (position : Nat) : scan position [] = ([], none) := by
  rw [scan]
  rfl

/-- The bytes of a text. -/
theorem byteLength_toList (s : String) : byteLength s.toList = s.utf8ByteSize := by
  have hofList : ∀ cs : List Char, byteLength cs = (String.ofList cs).utf8ByteSize := by
    intro cs
    induction cs with
    | nil => rfl
    | cons c cs ih =>
      rw [byteLength, ih, ← List.singleton_append, String.ofList_append,
        String.utf8ByteSize_append, ← String.singleton_eq_ofList, String.utf8ByteSize_singleton]
  rw [hofList, String.ofList_toList]

end Lexeme

namespace Token

/-- The tokens of characters that start at a byte offset, at a depth, with a
bare text under way or none. -/
def streamFrom (position depth : Nat) (run : Option Run) (cs : List Char) : Stream :=
  ofLexemes (Lexeme.scan position cs).2 position depth run (Lexeme.scan position cs).1

theorem stream_eq_streamFrom (source : String) :
    stream source = streamFrom 0 0 none source.toList := rfl

theorem tokenize_eq_ok_iff (source : String) (tokens : List Token) :
    tokenize source = .ok tokens ↔ stream source = (tokens, none) := by
  unfold tokenize
  split
  · next ts h => simp [h]
  · next ts fault h => simp [h]

/-- A source has a fault where the stream of its tokens ends in it. -/
theorem tokenize_eq_error_iff (source : String) (fault : LexicalFault) :
    tokenize source = .error fault ↔ (stream source).2 = some fault := by
  unfold tokenize
  split
  · next ts h => simp [h]
  · next ts fault h => simp [h]

/-- The run that goes on, or starts, with a lexeme. -/
def Run.extend (run : Option Run) (position : Nat) (gap body : List Char) : Run :=
  match run with
  | some r => ⟨r.start, position + Lexeme.byteLength gap + Lexeme.byteLength body,
      r.chars ++ gap ++ body⟩
  | none => ⟨position + Lexeme.byteLength gap,
      position + Lexeme.byteLength gap + Lexeme.byteLength body, body⟩

/-- The text under way, if any, before the tokens after it. -/
def Run.emit (run : Option Run) (s : Stream) : Stream :=
  match run with
  | some r => s.cons r.token
  | none => s

theorem Run.emit_snd (run : Option Run) (s : Stream) : (Run.emit run s).2 = s.2 := by
  cases run <;> rfl

/-- What one lexeme does: it goes into the text under way, or it ends it and is,
but for a comma at the top level, a token by itself. -/
theorem ofLexemes_cons (fault : Option LexicalFault) (position depth : Nat) (run : Option Run)
    (kind : Lexeme.Kind) (gap body : List Char) (lexemes : List Lexeme) :
    ofLexemes fault position depth run (⟨kind, gap, body⟩ :: lexemes) =
      let start := position + Lexeme.byteLength gap
      let stop := start + Lexeme.byteLength body
      let run' := some (Run.extend run position gap body)
      match kind, depth with
      | .bare, depth => ofLexemes fault stop depth run' lexemes
      | .equals, 0 =>
        Run.emit run ((ofLexemes fault stop 0 none lexemes).cons ⟨.equals, start, stop⟩)
      | .equals, depth + 1 => ofLexemes fault stop (depth + 1) run' lexemes
      | .comma, 0 => Run.emit run (ofLexemes fault stop 0 none lexemes)
      | .comma, depth + 1 =>
        Run.emit run ((ofLexemes fault stop (depth + 1) none lexemes).cons ⟨.comma, start, stop⟩)
      | .opening, depth =>
        Run.emit run ((ofLexemes fault stop (depth + 1) none lexemes).cons ⟨.opening, start, stop⟩)
      | .closing, 0 => Run.emit run ([], some (.strayClosing start))
      | .closing, depth + 1 =>
        Run.emit run ((ofLexemes fault stop depth none lexemes).cons ⟨.closing, start, stop⟩)
      | .quoted q, depth =>
        Run.emit run ((ofLexemes fault stop depth none lexemes).cons
          ⟨.text (String.ofList (unescape (unquoted body))) (some q), start, stop⟩) := by
  cases run <;> cases kind <;> cases depth <;> rfl

/-- What the first lexeme of the characters does. -/
theorem streamFrom_lexeme {cs body rest : List Char} {kind : Lexeme.Kind} (position depth : Nat)
    (run : Option Run) (gap : List Char) (hgap : ∀ c ∈ gap, Lexeme.isGap c = true) :
    Lexeme.first? cs = some (kind, body, rest) →
    streamFrom position depth run (gap ++ cs) =
      let start := position + Lexeme.byteLength gap
      let stop := start + Lexeme.byteLength body
      let run' := some (Run.extend run position gap body)
      match kind, depth with
      | .bare, depth => streamFrom stop depth run' rest
      | .equals, 0 => Run.emit run ((streamFrom stop 0 none rest).cons ⟨.equals, start, stop⟩)
      | .equals, depth + 1 => streamFrom stop (depth + 1) run' rest
      | .comma, 0 => Run.emit run (streamFrom stop 0 none rest)
      | .comma, depth + 1 =>
        Run.emit run ((streamFrom stop (depth + 1) none rest).cons ⟨.comma, start, stop⟩)
      | .opening, depth =>
        Run.emit run ((streamFrom stop (depth + 1) none rest).cons ⟨.opening, start, stop⟩)
      | .closing, 0 => Run.emit run ([], some (.strayClosing start))
      | .closing, depth + 1 =>
        Run.emit run ((streamFrom stop depth none rest).cons ⟨.closing, start, stop⟩)
      | .quoted q, depth =>
        Run.emit run ((streamFrom stop depth none rest).cons
          ⟨.text (String.ofList (unescape (unquoted body))) (some q), start, stop⟩) := by
  intro hfirst
  rw [streamFrom, Lexeme.scan_lexeme position gap hgap hfirst, ofLexemes_cons]
  cases kind <;> cases depth <;> rfl

/-- A bare stretch goes into the run. -/
theorem streamFrom_bare {cs body rest : List Char} (position depth : Nat) (run : Option Run)
    (gap : List Char) (hgap : ∀ c ∈ gap, Lexeme.isGap c = true)
    (hfirst : Lexeme.first? cs = some (.bare, body, rest)) :
    streamFrom position depth run (gap ++ cs) =
      streamFrom (position + Lexeme.byteLength gap + Lexeme.byteLength body) depth
        (some (Run.extend run position gap body)) rest := by
  rw [streamFrom_lexeme position depth run gap hgap hfirst]

theorem byteLength_append (a b : List Char) :
    Lexeme.byteLength (a ++ b) = Lexeme.byteLength a + Lexeme.byteLength b := by
  induction a with
  | nil => simp [Lexeme.byteLength]
  | cons c a ih => simp [Lexeme.byteLength, ih, Nat.add_assoc]

/-- A bare text may be read step by step: what is left of a stretch after a step
is the next lexeme of the same run. -/
theorem streamFrom_step (position depth : Nat) (run : Option Run) (gap : List Char)
    (hgap : ∀ c ∈ gap, Lexeme.isGap c = true) {u : List Char} (hu : Lexeme.Step u)
    (cs : List Char) :
    streamFrom position depth run (gap ++ (u ++ cs)) =
      streamFrom (position + Lexeme.byteLength gap + Lexeme.byteLength u) depth
        (some (Run.extend run position gap u)) cs := by
  have hstretch := Lexeme.bareStretch_step hu cs
  have hne : (Lexeme.bareStretch (u ++ cs)).1 ≠ [] := by
    rw [hstretch]
    cases hu <;> simp
  have hwhole := Lexeme.first?_of_bareStretch hne
  rw [hstretch] at hwhole
  rw [streamFrom_bare position depth run gap hgap hwhole]
  have happ := Lexeme.bareStretch_append cs
  by_cases hrest : (Lexeme.bareStretch cs).1 = []
  · rw [hrest, List.nil_append] at happ
    rw [hrest, happ, List.append_nil]
  · have hnext := Lexeme.first?_of_bareStretch hrest
    have hstep := streamFrom_bare (position + Lexeme.byteLength gap + Lexeme.byteLength u) depth
      (some (Run.extend run position gap u)) [] (by simp) hnext
    rw [List.nil_append] at hstep
    rw [hstep, byteLength_append]
    cases run <;> simp [Run.extend, Lexeme.byteLength, byteLength_append, Nat.add_assoc]

/-- Characters before which a bare text ends. -/
def Stops (depth : Nat) : List Char → Prop
  | [] => True
  | c :: _ => c = '(' ∨ c = ')' ∨ c = ',' ∨ (c = '=' ∧ depth = 0)

/-- The text under way becomes a token where it ends. -/
theorem streamFrom_flush {depth : Nat} {cs : List Char} (hstops : Stops depth cs)
    (position : Nat) (r : Run) :
    streamFrom position depth (some r) cs = (streamFrom position depth none cs).cons r.token := by
  cases cs with
  | nil => rw [streamFrom, streamFrom, Lexeme.scan_nil]; rfl
  | cons c cs =>
    have hscan : ∀ kind, Lexeme.first? (c :: cs) = some (kind, [c], cs) →
        Lexeme.scan position (c :: cs) =
          (⟨kind, [], [c]⟩ :: (Lexeme.scan (position + 0 + Lexeme.byteLength [c]) cs).1,
            (Lexeme.scan (position + 0 + Lexeme.byteLength [c]) cs).2) := by
      intro kind hfirst
      exact Lexeme.scan_lexeme position [] (by simp) hfirst
    rw [streamFrom, streamFrom]
    rcases hstops with rfl | rfl | rfl | ⟨rfl, rfl⟩
    · rw [hscan .opening rfl, ofLexemes_cons, ofLexemes_cons]
      rfl
    · rw [hscan .closing rfl, ofLexemes_cons, ofLexemes_cons]
      cases depth <;> rfl
    · rw [hscan .comma rfl, ofLexemes_cons, ofLexemes_cons]
      cases depth <;> rfl
    · rw [hscan .equals rfl, ofLexemes_cons, ofLexemes_cons]
      rfl

/-! ## What is written and how it is read -/

/-- At this depth, after the characters of a bare text under way or after none,
the characters are read as tokens of these kinds and to their end. -/
def Spells (depth : Nat) (run : Option (List Char)) (cs : List Char) (kinds : List Kind) : Prop :=
  ∀ (position : Nat) (r : Option Run), r.map Run.chars = run →
    ∃ tokens, streamFrom position depth r cs = (tokens, none) ∧ tokens.map Token.kind = kinds

namespace Spells

variable {depth : Nat} {rest : List Char} {kinds : List Kind}

theorem nil : Spells depth none [] [] := by
  intro position r hr
  obtain rfl : r = none := by simpa using hr
  exact ⟨[], by rw [streamFrom, Lexeme.scan_nil]; rfl, rfl⟩

/-- A lexeme that is a token by itself. -/
theorem cons_token {after : Nat} {cs body : List Char} (kind : Lexeme.Kind) (token : Kind)
    (h : Spells after none rest kinds) (hfirst : Lexeme.first? cs = some (kind, body, rest))
    (hstep : ∀ fault position gap lexemes, ofLexemes fault position depth none
        (⟨kind, gap, body⟩ :: lexemes) =
      (ofLexemes fault (position + Lexeme.byteLength gap + Lexeme.byteLength body) after none
        lexemes).cons ⟨token, position + Lexeme.byteLength gap,
          position + Lexeme.byteLength gap + Lexeme.byteLength body⟩) :
    Spells depth none cs (token :: kinds) := by
  intro position r hr
  obtain rfl : r = none := by simpa using hr
  obtain ⟨tokens, hstream, hkinds⟩ := h (position + 0 + Lexeme.byteLength body) none rfl
  have hscan := Lexeme.scan_lexeme position [] (by simp) hfirst
  rw [List.nil_append] at hscan
  rw [streamFrom, hscan, hstep]
  refine ⟨⟨token, position + 0, position + 0 + Lexeme.byteLength body⟩ :: tokens, ?_,
    by rw [List.map_cons, hkinds]⟩
  simp only [streamFrom] at hstream
  simp only [Lexeme.byteLength, hstream]
  rfl

theorem opening (h : Spells (depth + 1) none rest kinds) :
    Spells depth none ('(' :: rest) (.opening :: kinds) :=
  cons_token .opening .opening h rfl fun _ _ _ _ => rfl

theorem comma (h : Spells (depth + 1) none rest kinds) :
    Spells (depth + 1) none (',' :: rest) (.comma :: kinds) :=
  cons_token .comma .comma h rfl fun _ _ _ _ => rfl

theorem closing (h : Spells depth none rest kinds) :
    Spells (depth + 1) none (')' :: rest) (.closing :: kinds) :=
  cons_token .closing .closing h rfl fun _ _ _ _ => rfl

/-- A quoted stretch. -/
theorem quoted {q : Quote} {inner : List Char} (h : Spells depth none rest kinds)
    (hquoted : Lexeme.quotedStretch q.char (inner ++ q.char :: rest) =
      some (inner ++ [q.char], rest)) :
    Spells depth none (q.char :: (inner ++ q.char :: rest))
      (.text (String.ofList (unescape inner)) (some q) :: kinds) := by
  have hfirst : Lexeme.first? (q.char :: (inner ++ q.char :: rest)) =
      some (.quoted q, q.char :: (inner ++ [q.char]), rest) := by
    cases q <;> simp [Lexeme.first?, Quote.ofChar?, Quote.char] at hquoted ⊢ <;> exact hquoted
  have hinner : unquoted (q.char :: (inner ++ [q.char])) = inner := by
    simp [unquoted]
  have htoken := cons_token (.quoted q)
    (.text (String.ofList (unescape (unquoted (q.char :: (inner ++ [q.char]))))) (some q)) h hfirst
    fun _ _ _ _ => rfl
  rwa [hinner] at htoken

/-- A bare text ends. -/
theorem flush {chars : List Char} (hstops : Stops depth rest)
    (h : Spells depth none rest kinds) :
    Spells depth (some chars) rest (.text (String.ofList (unescape chars)) none :: kinds) := by
  intro position r hr
  obtain ⟨r, rfl, rfl⟩ := Option.map_eq_some_iff.1 hr
  obtain ⟨tokens, hstream, hkinds⟩ := h position none rfl
  refine ⟨r.token :: tokens, ?_, by rw [List.map_cons, hkinds]; rfl⟩
  rw [streamFrom_flush hstops, hstream]
  rfl

/-- A bare text starts. -/
theorem start {u : List Char} (hu : Lexeme.Step u) (h : Spells depth (some u) rest kinds) :
    Spells depth none (u ++ rest) kinds := by
  intro position r hr
  obtain rfl : r = none := by simpa using hr
  have hstep := streamFrom_step position depth none [] (by simp) hu rest
  rw [List.nil_append] at hstep
  rw [hstep]
  exact h _ _ rfl

/-- A bare text goes on, perhaps after blanks. -/
theorem extend {gap u chars : List Char} (hgap : ∀ c ∈ gap, Lexeme.isGap c = true)
    (hu : Lexeme.Step u) (h : Spells depth (some (chars ++ gap ++ u)) rest kinds) :
    Spells depth (some chars) (gap ++ (u ++ rest)) kinds := by
  intro position r hr
  obtain ⟨r, rfl, rfl⟩ := Option.map_eq_some_iff.1 hr
  rw [streamFrom_step position depth (some r) gap hgap hu]
  exact h _ _ rfl

end Spells

/-- What is spelled from the start of a source is what the source divides into. -/
theorem tokenize_of_spells {source : String} {kinds : List Kind}
    (h : Spells 0 none source.toList kinds) :
    ∃ tokens, tokenize source = .ok tokens ∧ tokens.map Token.kind = kinds := by
  obtain ⟨tokens, hstream, hkinds⟩ := h 0 none rfl
  refine ⟨tokens, ?_, hkinds⟩
  rw [tokenize_eq_ok_iff, stream_eq_streamFrom, hstream]

end Token
end ResourceQuery

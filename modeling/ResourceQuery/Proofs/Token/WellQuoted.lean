import ResourceQuery.Proofs.Outcome
import ResourceQuery.Proofs.Token.LongestMatch

set_option autoImplicit false

/-!
# Tokens: which sources divide into tokens

One pass over the characters, with the open quote, a pending escape and the
depth of parentheses in hand, decides whether a source divides into tokens:
every escape must take a character that is no line feed, the pass must end
outside quotes, and the depth must never be negative.  Lexemes and runs of text
do not come into it.

The verdict of the pass and the outcome of reading are compared at every lexeme
(`Watch.passes_lexeme`) and at the place where there is none (`Judged.broken`).
`Judged` holds both ways, so it decides which sources are read and where the
others go wrong.
-/

namespace ResourceQuery.Token

open Lexeme (isGap byteLength Steps Enclosed)

/-! ## The pass over the characters -/

/-- What is known after some characters: the quote that is open, whether the
next character is escaped, and how many more parentheses were opened than closed
outside quotes and escapes. -/
structure Watch where
  quote : Option Quote
  escaped : Bool
  depth : Int
  deriving DecidableEq, Repr

namespace Watch

/-- Before the first character. -/
def start : Watch := ⟨none, false, 0⟩

/-- Outside quotes and escapes. -/
def neutral (depth : Int) : Watch := ⟨none, false, depth⟩

/-- Inside a quote. -/
def inside (q : Quote) (depth : Int) : Watch := ⟨some q, false, depth⟩

/-- One character on. -/
def step (w : Watch) (c : Char) : Watch :=
  if w.escaped then { w with escaped := false }
  else if c = '\\' then { w with escaped := true }
  else match w.quote with
    | some q => if c = q.char then { w with quote := none } else w
    | none =>
      match Quote.ofChar? c with
      | some q => { w with quote := some q }
      | none =>
        if c = '(' then { w with depth := w.depth + 1 }
        else if c = ')' then { w with depth := w.depth - 1 }
        else w

/-- Some characters on. -/
def read (w : Watch) (cs : List Char) : Watch := cs.foldl step w

@[simp] theorem read_nil (w : Watch) : w.read [] = w := rfl

@[simp] theorem read_cons (w : Watch) (c : Char) (cs : List Char) :
    w.read (c :: cs) = (w.step c).read cs := rfl

theorem read_append (w : Watch) (a b : List Char) : w.read (a ++ b) = (w.read a).read b :=
  List.foldl_append

/-- A character is escaped exactly after a backslash that is not. -/
theorem escaped_step {w : Watch} {c : Char} :
    (w.step c).escaped = true ↔ w.escaped = false ∧ c = '\\' := by
  unfold step
  grind

/-- Every escape takes a character with it, which is no line feed. -/
def Escapes : Watch → List Char → Prop
  | w, [] => w.escaped = false
  | w, c :: cs => (w.escaped = true → c ≠ '\n') ∧ (w.step c).Escapes cs

/-- The depth is never negative. -/
def Level : Watch → List Char → Prop
  | w, [] => 0 ≤ w.depth
  | w, c :: cs => 0 ≤ w.depth ∧ (w.step c).Level cs

instance decidableEscapes : (w : Watch) → (cs : List Char) → Decidable (w.Escapes cs)
  | w, [] => inferInstanceAs (Decidable (w.escaped = false))
  | w, c :: cs => @instDecidableAnd _ _ _ (decidableEscapes (w.step c) cs)

instance decidableLevel : (w : Watch) → (cs : List Char) → Decidable (w.Level cs)
  | w, [] => inferInstanceAs (Decidable (0 ≤ w.depth))
  | w, c :: cs => @instDecidableAnd _ _ _ (decidableLevel (w.step c) cs)

theorem level_iff {w : Watch} {cs : List Char} :
    w.Level cs ↔ ∀ before, before <+: cs → 0 ≤ (w.read before).depth := by
  induction cs generalizing w with
  | nil => simp [Level]
  | cons c cs ih =>
    rw [Level, ih]
    simp only [List.prefix_cons_iff]
    constructor
    · rintro ⟨hdepth, hrest⟩ before (rfl | ⟨before, rfl, hbefore⟩)
      · exact hdepth
      · exact hrest before hbefore
    · intro h
      exact ⟨h [] (.inl rfl), fun before hbefore => h (c :: before) (.inr ⟨before, rfl, hbefore⟩)⟩

/-- The escapes seen from their backslashes, the pending one included: each has
a character behind it that it may take. -/
theorem escapes_iff {w : Watch} {cs : List Char} :
    w.Escapes cs ↔ (w.escaped = true → ∃ c rest, cs = c :: rest ∧ c ≠ '\n') ∧
      ∀ before after : List Char, cs = before ++ '\\' :: after →
        (w.read before).escaped = false → ∃ c rest, after = c :: rest ∧ c ≠ '\n' := by
  induction cs generalizing w with
  | nil => simp [Escapes]
  | cons c cs ih =>
    rw [Escapes, ih]
    constructor
    · rintro ⟨hpending, hnext, hrest⟩
      refine ⟨fun hw => ⟨c, cs, rfl, hpending hw⟩, fun before after heq hbefore => ?_⟩
      rcases List.cons_eq_append_iff.1 heq with ⟨rfl, hhead⟩ | ⟨before, rfl, htail⟩
      · cases hhead
        exact hnext (escaped_step.2 ⟨hbefore, rfl⟩)
      · exact hrest before after htail hbefore
    · rintro ⟨hpending, hrest⟩
      refine ⟨fun hw => ?_, fun hw => ?_, fun before after heq hbefore => ?_⟩
      · obtain ⟨_, _, hcons, hline⟩ := hpending hw
        cases hcons
        exact hline
      · obtain ⟨hfree, rfl⟩ := escaped_step.1 hw
        exact hrest [] cs rfl hfree
      · exact hrest (c :: before) after (by rw [heq, List.cons_append]) hbefore

/-! ## Characters that are passed over -/

/-- The pass over the characters leads from the one state to the other, and
neither an escape nor the depth goes wrong on the way. -/
structure Passes (w : Watch) (a : List Char) (w' : Watch) : Prop where
  read_eq : w.read a = w'
  escapes : ∀ cs, w.Escapes (a ++ cs) ↔ w'.Escapes cs
  level : ∀ cs, w.Level (a ++ cs) ↔ w'.Level cs

theorem Level.depth {w : Watch} {cs : List Char} (h : w.Level cs) : 0 ≤ w.depth := by
  cases cs with
  | nil => exact h
  | cons c cs => exact h.1

namespace Passes

theorem nil (w : Watch) : Passes w [] w := ⟨rfl, fun _ => .rfl, fun _ => .rfl⟩

theorem append {w w' w'' : Watch} {a b : List Char} (h : Passes w a w') (h' : Passes w' b w'') :
    Passes w (a ++ b) w'' where
  read_eq := by rw [read_append, h.read_eq, h'.read_eq]
  escapes cs := by rw [List.append_assoc, h.escapes, h'.escapes]
  level cs := by rw [List.append_assoc, h.level, h'.level]

/-- A character that is not escaped. -/
theorem single {w w' : Watch} {c : Char} (hstep : w.step c = w') (hw : w.escaped = false)
    (hdepth : 0 ≤ w'.depth → 0 ≤ w.depth) : Passes w [c] w' where
  read_eq := hstep
  escapes cs := by
    show w.Escapes (c :: cs) ↔ _
    rw [Escapes, hstep, hw]
    simp
  level cs := by
    show w.Level (c :: cs) ↔ _
    rw [Level, hstep]
    exact ⟨And.right, fun h => ⟨hdepth h.depth, h⟩⟩

/-- An escape. -/
theorem escape {w : Watch} (hw : w.escaped = false) {c : Char} (hline : c ≠ '\n') :
    Passes w ['\\', c] w := by
  have hopen : w.step '\\' = { w with escaped := true } := by simp [step, hw]
  have hclose : ({ w with escaped := true } : Watch).step c = w := by
    simp [step, ← hw]
  refine ⟨by rw [read_cons, hopen, read_cons, hclose, read_nil], fun cs => ?_, fun cs => ?_⟩
  · show w.Escapes ('\\' :: c :: cs) ↔ _
    rw [Escapes, hopen, Escapes, hclose, hw]
    simp [hline]
  · show w.Level ('\\' :: c :: cs) ↔ _
    rw [Level, hopen, Level, hclose]
    exact ⟨fun h => h.2.2, fun h => ⟨h.depth, h.depth, h⟩⟩

/-- A character that means nothing outside quotes. -/
theorem plain {c : Char} (hback : c ≠ '\\') (hquote : Quote.ofChar? c = none) (hopening : c ≠ '(')
    (hclosing : c ≠ ')') (depth : Int) : Passes (neutral depth) [c] (neutral depth) :=
  single (by simp [step, neutral, hback, hquote, hopening, hclosing]) rfl id

theorem gap {gap : List Char} (hgap : ∀ c ∈ gap, isGap c = true) (depth : Int) :
    Passes (neutral depth) gap (neutral depth) := by
  induction gap with
  | nil => exact nil _
  | cons c gap ih =>
    have hc : isGap c = true := hgap c List.mem_cons_self
    have hfree : ∀ d : Char, isGap d = false → c ≠ d := by
      rintro d hd rfl
      rw [hc] at hd
      cases hd
    have hquote : Quote.ofChar? c = none := by
      simp [Quote.ofChar?, hfree '\'' (by decide), hfree '"' (by decide)]
    have hhead : Passes (neutral depth) [c] (neutral depth) :=
      plain (hfree _ (by decide)) hquote (hfree _ (by decide)) (hfree _ (by decide)) depth
    exact append hhead (ih fun d hd => hgap d (.tail c hd))

theorem bareStep {u : List Char} (hu : Lexeme.Step u) (depth : Int) :
    Passes (neutral depth) u (neutral depth) := by
  cases hu with
  | @plain c hgap hreserved =>
    simp only [Lexeme.isReserved, Bool.or_eq_false_iff, beq_eq_false_iff_ne] at hreserved
    exact plain (by simp [hreserved]) (by simp [Quote.ofChar?, hreserved]) (by simp [hreserved])
      (by simp [hreserved]) depth
  | escape hline => exact escape rfl hline

theorem steps {body : List Char} (h : Steps body) (depth : Int) :
    Passes (neutral depth) body (neutral depth) := by
  induction h with
  | nil => exact nil _
  | cons hu _ ih => exact append (bareStep hu depth) ih

theorem enclosed {q : Quote} {inner : List Char} (h : Enclosed q.char inner) (depth : Int) :
    Passes (inside q depth) inner (inside q depth) := by
  induction h with
  | nil => exact nil _
  | plain hquote hback _ ih =>
    exact append (single (by simp [step, inside, hback, hquote]) rfl id) ih
  | escape hline _ ih => exact append (escape rfl hline) ih

theorem opens (q : Quote) (depth : Int) : Passes (neutral depth) [q.char] (inside q depth) :=
  single (by simp [step, neutral, inside, q.char_ne_backslash, q.ofChar?_char]) rfl id

theorem closes (q : Quote) (depth : Int) : Passes (inside q depth) [q.char] (neutral depth) :=
  single (by simp [step, neutral, inside, q.char_ne_backslash]) rfl id

end Passes

end Watch

/-- The depth after a lexeme. -/
def depthAfter (depth : Nat) : Lexeme.Kind → Nat
  | .opening => depth + 1
  | .closing => depth - 1
  | _ => depth

/-- A lexeme is passed over from one neutral state to another, unless it closes
a parenthesis that was not opened. -/
theorem Watch.passes_lexeme {kind : Lexeme.Kind} {body : List Char} (h : kind.Matches body)
    {depth : Nat} (hopen : kind = .closing → depth ≠ 0) :
    Passes (neutral depth) body (neutral (depthAfter depth kind)) := by
  cases kind with
  | opening =>
    obtain rfl : body = ['('] := h
    exact .single rfl rfl fun _ => Int.natCast_nonneg depth
  | closing =>
    obtain rfl : body = [')'] := h
    obtain ⟨n, rfl⟩ := Nat.exists_eq_succ_of_ne_zero (hopen rfl)
    refine .single ?_ rfl fun _ => Int.natCast_nonneg _
    show neutral ((n.succ : Int) - 1) = neutral n
    rw [Nat.succ_eq_add_one, Int.natCast_add, Int.natCast_one, Int.add_sub_cancel]
  | comma =>
    obtain rfl : body = [','] := h
    exact .plain (by decide) (by decide) (by decide) (by decide) depth
  | equals =>
    obtain rfl : body = ['='] := h
    exact .plain (by decide) (by decide) (by decide) (by decide) depth
  | quoted q =>
    obtain ⟨inner, rfl, hinner⟩ := h
    exact .append (.opens q depth) (.append (.enclosed hinner depth) (.closes q depth))
  | bare => exact .steps h.2 depth

/-! ## Where no lexeme starts -/

/-- A quote that is open is closed if the pass ends outside quotes. -/
theorem Watch.closes_of_ends {q : Quote} {depth : Int} (cs : List Char)
    (hescapes : (inside q depth).Escapes cs) (hends : ((inside q depth).read cs).quote = none) :
    ∃ inner rest, cs = inner ++ q.char :: rest ∧ Enclosed q.char inner := by
  cases cs with
  | nil => cases hends
  | cons c cs =>
    by_cases hback : c = '\\'
    · subst hback
      cases cs with
      | nil => cases hescapes.2
      | cons c cs =>
        have hline : c ≠ '\n' := hescapes.2.1 rfl
        have hpass : Passes (inside q depth) ['\\', c] (inside q depth) := .escape rfl hline
        have hescapes' := (hpass.escapes cs).1 hescapes
        have hends' : ((inside q depth).read cs).quote = none := by
          rw [← hpass.read_eq, ← read_append]
          exact hends
        obtain ⟨inner, rest, rfl, hinner⟩ := closes_of_ends cs hescapes' hends'
        exact ⟨'\\' :: c :: inner, rest, rfl, .escape hline hinner⟩
    · by_cases hquote : c = q.char
      · exact ⟨[], cs, by rw [hquote]; rfl, .nil⟩
      · have hstep : (inside q depth).step c = inside q depth := by
          simp [step, inside, hback, hquote]
        rw [read_cons, hstep] at hends
        rw [Escapes, hstep] at hescapes
        obtain ⟨inner, rest, rfl, hinner⟩ := closes_of_ends cs hescapes.2 hends
        exact ⟨c :: inner, rest, rfl, .plain hquote hback hinner⟩

/-- A lexeme starts at every character that is no blank, if the escapes are in
order and the pass ends outside quotes. -/
theorem Watch.first?_ne_none {depth : Int} {c : Char} {cs : List Char} (hgap : isGap c = false)
    (hescapes : (neutral depth).Escapes (c :: cs))
    (hends : ((neutral depth).read (c :: cs)).quote = none) : Lexeme.first? (c :: cs) ≠ none := by
  intro hnone
  have hno := Lexeme.first?_eq_none_iff.1 hnone
  cases hreserved : Lexeme.isReserved c with
  | false => exact hno .bare [c] cs rfl (Lexeme.Step.plain hgap hreserved).matches
  | true =>
    have hchars : c = '(' ∨ c = ')' ∨ c = ',' ∨ c = '=' ∨ c = '\'' ∨ c = '"' ∨ c = '\\' := by
      simpa [Lexeme.isReserved, or_assoc] using hreserved
    have hquoted : ∀ q : Quote, c = q.char → False := by
      rintro q rfl
      have hopens : Passes (neutral depth) [q.char] (inside q depth) := .opens q depth
      have hends' : ((inside q depth).read cs).quote = none := by
        rw [← hopens.read_eq]
        exact hends
      obtain ⟨inner, rest, rfl, hinner⟩ :=
        closes_of_ends cs ((hopens.escapes cs).1 hescapes) hends'
      exact hno (.quoted q) (q.char :: (inner ++ [q.char])) rest (by simp) ⟨inner, rfl, hinner⟩
    rcases hchars with rfl | rfl | rfl | rfl | hc | hc | rfl
    · exact hno .opening ['('] cs rfl rfl
    · exact hno .closing [')'] cs rfl rfl
    · exact hno .comma [','] cs rfl rfl
    · exact hno .equals ['='] cs rfl rfl
    · exact hquoted .single hc
    · exact hquoted .double hc
    · cases cs with
      | nil => cases hescapes.2
      | cons d cs =>
        have hline : d ≠ '\n' := hescapes.2.1 rfl
        exact hno .bare ['\\', d] cs rfl (Lexeme.Step.escape hline).matches

/-! ## The verdict -/

/-- What the pass from a state says of the characters is borne out by the fault,
if any, that reading them from the byte offset comes to. -/
structure Watch.Judged (w : Watch) (position : Nat) (cs : List Char)
    (fault : Option LexicalFault) : Prop where
  accepted : fault = none ↔ w.Escapes cs ∧ (w.read cs).quote = none ∧ w.Level cs
  stray : w.Escapes cs → (w.read cs).quote = none → ¬ w.Level cs → ∃ before after,
    cs = before ++ ')' :: after ∧ w.read before = neutral 0 ∧ w.Level before ∧
      fault = some (.strayClosing (position + byteLength before))

namespace Watch.Judged

/-- What is passed over does not change the verdict. -/
theorem of_passes {w w' : Watch} {a cs : List Char} {position : Nat} {fault : Option LexicalFault}
    (hpass : Passes w a w') (h : Judged w' (position + byteLength a) cs fault) :
    Judged w position (a ++ cs) fault := by
  have hends : (w.read (a ++ cs)).quote = (w'.read cs).quote := by
    rw [read_append, hpass.read_eq]
  refine ⟨?_, fun hescapes hquote hlevel => ?_⟩
  · rw [h.accepted, hpass.escapes, hpass.level, hends]
  · rw [hends] at hquote
    rw [hpass.level] at hlevel
    obtain ⟨before, after, rfl, hread, hbefore, hfault⟩ :=
      h.stray ((hpass.escapes _).1 hescapes) hquote hlevel
    refine ⟨a ++ before, after, by rw [List.append_assoc], ?_, (hpass.level _).2 hbefore, ?_⟩
    · rw [read_append, hpass.read_eq, hread]
    · rw [hfault, byteLength_append, Nat.add_assoc]

/-- Nothing is left to be read. -/
theorem nil (depth position : Nat) : Judged (neutral depth) position [] none :=
  ⟨iff_of_true rfl ⟨rfl, rfl, Int.natCast_nonneg depth⟩,
    fun _ _ hlevel => absurd (Int.natCast_nonneg depth) hlevel⟩

/-- No lexeme starts here. -/
theorem broken {depth : Int} {c : Char} {cs : List Char} (hgap : isGap c = false)
    (hfirst : Lexeme.first? (c :: cs) = none) (position : Nat) (fault : LexicalFault) :
    Judged (neutral depth) position (c :: cs) (some fault) :=
  ⟨iff_of_false (fun h => by cases h) fun h => first?_ne_none hgap h.1 h.2.1 hfirst,
    fun hescapes hends _ => absurd hfirst (first?_ne_none hgap hescapes hends)⟩

/-- A parenthesis is closed that was not opened. -/
theorem unopened (position : Nat) (cs : List Char) :
    Judged (neutral 0) position (')' :: cs) (some (.strayClosing position)) := by
  have hlevel : ¬ (neutral 0).Level (')' :: cs) := fun h => absurd h.2.depth (by decide)
  exact ⟨iff_of_false (fun h => by cases h) fun h => hlevel h.2.2,
    fun _ _ _ => ⟨[], cs, rfl, rfl, Int.le_refl 0, rfl⟩⟩

end Watch.Judged

/-- The fault after a lexeme is that of the characters behind it. -/
theorem snd_streamFrom_lexeme {cs body rest : List Char} {kind : Lexeme.Kind}
    (position : Nat) {depth : Nat} (run : Option Run) {gap : List Char}
    (hgap : ∀ c ∈ gap, isGap c = true) (hfirst : Lexeme.first? cs = some (kind, body, rest))
    (hopen : kind = .closing → depth ≠ 0) :
    ∃ run', (streamFrom position depth run (gap ++ cs)).2 =
      (streamFrom (position + byteLength gap + byteLength body) (depthAfter depth kind) run'
        rest).2 := by
  rw [streamFrom_lexeme position depth run gap hgap hfirst]
  cases kind with
  | bare => exact ⟨_, rfl⟩
  | equals =>
    cases depth with
    | zero => exact ⟨none, Run.emit_snd run _⟩
    | succ depth => exact ⟨_, rfl⟩
  | comma => cases depth <;> exact ⟨none, Run.emit_snd run _⟩
  | opening => exact ⟨none, Run.emit_snd run _⟩
  | closing =>
    cases depth with
    | zero => exact absurd rfl (hopen rfl)
    | succ depth => exact ⟨none, Run.emit_snd run _⟩
  | quoted q => exact ⟨none, Run.emit_snd run _⟩

/-- The verdict of the pass, from any place of a source where a lexeme may start. -/
theorem judged_streamFrom (position : Nat) (cs : List Char) : ∀ (depth : Nat) (run : Option Run),
    Watch.Judged (.neutral depth) position cs (streamFrom position depth run cs).2 := by
  induction position, cs using Lexeme.scan_induction with
  | blank position gap hgap =>
    intro depth run
    rw [streamFrom_blank hgap, Run.emit_snd, ← List.append_nil gap]
    exact .of_passes (.gap hgap depth) (.nil depth _)
  | fault position gap c cs hgap hc hfirst =>
    intro depth run
    rw [streamFrom_fault hgap hc hfirst]
    exact .of_passes (.gap hgap depth) (.broken hc hfirst _ _)
  | lexeme position gap cs kind body rest hgap hfirst ih =>
    intro depth run
    obtain ⟨rfl, hmatches, _⟩ := Lexeme.first?_eq_some_iff.1 hfirst
    by_cases hstray : kind = .closing ∧ depth = 0
    · obtain ⟨rfl, rfl⟩ := hstray
      have hfault : (streamFrom position 0 run (gap ++ (body ++ rest))).2 =
          some (.strayClosing (position + byteLength gap)) := by
        rw [streamFrom_lexeme position 0 run gap hgap hfirst]
        exact Run.emit_snd run _
      obtain rfl : body = [')'] := hmatches
      rw [hfault]
      exact .of_passes (.gap hgap 0) (.unopened _ rest)
    · have hopen : kind = .closing → depth ≠ 0 := fun hkind hdepth => hstray ⟨hkind, hdepth⟩
      obtain ⟨run', hfault⟩ := snd_streamFrom_lexeme position run hgap hfirst hopen
      rw [hfault]
      exact .of_passes (.gap hgap depth) (.of_passes (Watch.passes_lexeme hmatches hopen)
        (ih (depthAfter depth kind) run'))

/-! ## Sources -/

/-- Every backslash that is not escaped itself has a character behind it, which
is no line feed. -/
def EscapesClosed (source : String) : Prop :=
  ∀ before after : List Char, source.toList = before ++ '\\' :: after →
    (Watch.start.read before).escaped = false → ∃ c rest, after = c :: rest ∧ c ≠ '\n'

/-- The pass ends outside quotes. -/
def EndsUnquoted (source : String) : Prop := (Watch.start.read source.toList).quote = none

/-- The depth is never negative. -/
def NeverNegative (source : String) : Prop :=
  ∀ before, before <+: source.toList → 0 ≤ (Watch.start.read before).depth

theorem escapesClosed_iff {source : String} :
    EscapesClosed source ↔ Watch.start.Escapes source.toList := by
  rw [Watch.escapes_iff, EscapesClosed]
  exact ⟨fun h => ⟨fun hw => absurd hw (by decide), h⟩, And.right⟩

theorem neverNegative_iff {source : String} :
    NeverNegative source ↔ Watch.start.Level source.toList := Watch.level_iff.symm

instance (source : String) : Decidable (EscapesClosed source) :=
  decidable_of_iff _ escapesClosed_iff.symm

instance (source : String) : Decidable (EndsUnquoted source) :=
  inferInstanceAs (Decidable ((Watch.start.read source.toList).quote = none))

instance (source : String) : Decidable (NeverNegative source) :=
  decidable_of_iff _ neverNegative_iff.symm

/-- A source divides into tokens exactly when its escapes and quotes are closed
and no parenthesis is closed that was not opened; if the last alone fails, the
fault is at the first such parenthesis. -/
theorem tokenize_accepts_wellQuoted (source : String) :
    ((∃ tokens, tokenize source = .ok tokens) ↔
      EscapesClosed source ∧ EndsUnquoted source ∧ NeverNegative source) ∧
    (EscapesClosed source → EndsUnquoted source → ¬ NeverNegative source →
      ∃ before after : String, source = before ++ ")" ++ after ∧
        Watch.start.read before.toList = .neutral 0 ∧ NeverNegative before ∧
        tokenize source = .error (.strayClosing before.utf8ByteSize)) := by
  have hjudged := judged_streamFrom 0 source.toList 0 none
  rw [← stream_eq_streamFrom] at hjudged
  have hstart : Watch.neutral (0 : Nat) = .start := rfl
  rw [hstart] at hjudged
  refine ⟨?_, fun hescapes hends hnegative => ?_⟩
  · rw [escapesClosed_iff, neverNegative_iff, EndsUnquoted, ← hjudged.accepted]
    simp only [tokenize_eq_ok_iff]
    constructor
    · rintro ⟨tokens, htokens⟩
      rw [htokens]
    · intro hnone
      exact ⟨(stream source).1, Prod.ext rfl hnone⟩
  · rw [escapesClosed_iff] at hescapes
    rw [neverNegative_iff] at hnegative
    obtain ⟨before, after, hsource, hread, hlevel, hfault⟩ :=
      hjudged.stray hescapes hends hnegative
    refine ⟨String.ofList before, String.ofList after, ?_, ?_, ?_, ?_⟩
    · rw [← String.toList_inj, hsource]
      simp
    · rwa [String.toList_ofList]
    · rwa [neverNegative_iff, String.toList_ofList]
    · rw [tokenize_eq_error_iff, hfault, Nat.zero_add, ← Lexeme.byteLength_toList,
        String.toList_ofList]

/-- Neither the quoted nor the escaped parenthesis counts, and the last one was not opened. -/
theorem tokenize_accepts_wellQuoted_unopened :
    EscapesClosed "f('(',\\))),b" ∧ EndsUnquoted "f('(',\\))),b" ∧
    ¬ NeverNegative "f('(',\\))),b" ∧
    ∃ before after : String, "f('(',\\))),b" = before ++ ")" ++ after ∧
      Watch.start.read before.toList = .neutral 0 ∧ NeverNegative before ∧
      tokenize "f('(',\\))),b" = .error (.strayClosing before.utf8ByteSize) := by
  have hescapes : EscapesClosed "f('(',\\))),b" := by decide
  have hends : EndsUnquoted "f('(',\\))),b" := by decide
  have hnegative : ¬ NeverNegative "f('(',\\))),b" := by decide
  exact ⟨hescapes, hends, hnegative,
    (tokenize_accepts_wellQuoted "f('(',\\))),b").2 hescapes hends hnegative⟩

end ResourceQuery.Token

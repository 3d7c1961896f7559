import ResourceQuery.Proofs.Fragment.Building
import ResourceQuery.Proofs.Fragment.Grammar
import ResourceQuery.Proofs.Outcome
import ResourceQuery.Proofs.Token.Spelling

set_option autoImplicit false

/-!
# Fragments: the reader accepts exactly its grammar

The reader keeps the open calls on a stack.  Completeness follows the
derivation: whatever is still to be read, the tokens of a derivation take the
reader from a state to the one that has accepted its term.  Soundness follows
the run: with derivations in the places of terms, each state knows the tokens
that led to it, and every step of the reader adds its token to them.
-/

namespace ResourceQuery.Fragment

/-! ## Steps of the reader -/

/-- Reads tokens that no fault ends, into terms. -/
def readTerms (tokens : List Token) (st : State Term) : Except Fault (State Term) :=
  (readTokens terms none tokens st ()).1

/-- A term may come next: at the top level always, in a call where no comma or
parenthesis is due. -/
def State.Open (st : State Term) : Prop := st.frames = [] ∨ st.place ≠ .separator

/-- The innermost call is closed, over terms. -/
def State.close (st : State Term) : State Term := (st.closeCall terms ()).1

/-- The next token does not open a call. -/
def NoOpening : List Token → Prop
  | [] => True
  | token :: _ => token.kind ≠ .opening

theorem State.accept_eq_of_frames {st st' : State Term} (hs : st.segments = st'.segments)
    (hf : st.frames = st'.frames) (term : Term) (isCall : Bool) :
    st.accept term isCall = st'.accept term isCall := by
  unfold State.accept
  rw [hs, hf]

/-- A text before anything but an opening parenthesis is a leaf. -/
theorem readTerms_leaf {token : Token} {rest : List Token} {st : State Term} {text : String}
    {quote : Option Quote} (hkind : token.kind = .text text quote) (hopen : st.Open)
    (hrest : NoOpening rest) :
    readTerms (token :: rest) st =
      readTerms rest (st.accept (.leaf text quote) false) := by
  obtain ⟨segments, frames, place⟩ := st
  rw [readTerms, readTokens.eq_def terms none (token :: rest)]
  cases rest with
  | nil => cases frames <;> cases place <;> simp_all [State.Open] <;> rfl
  | cons next rest =>
    have hnext : next.kind ≠ .opening := hrest
    cases frames <;> cases place <;> simp_all [State.Open] <;> rfl

/-- A bare text before an opening parenthesis opens a call. -/
theorem readTerms_open {token next : Token} {rest : List Token} {st : State Term} {text : String}
    (hkind : token.kind = .text text none) (hnext : next.kind = .opening) (hopen : st.Open) :
    readTerms (token :: next :: rest) st = readTerms rest (st.openCall text) := by
  obtain ⟨segments, frames, place⟩ := st
  rw [readTerms, readTokens.eq_def terms none (token :: next :: rest)]
  cases frames <;> cases place <;> simp_all [State.Open] <;> rfl

/-- A comma after an argument. -/
theorem readTerms_comma {token : Token} {rest : List Token} {segments : List (List (Piece Term))}
    {frame : Frame Term} {frames : List (Frame Term)} (hkind : token.kind = .comma) :
    readTerms (token :: rest) ⟨segments, frame :: frames, .separator⟩ =
      readTerms rest ⟨segments, frame :: frames, .argument⟩ := by
  rw [readTerms, readTokens.eq_def terms none (token :: rest)]
  simp only [hkind]
  rfl

/-- A closing parenthesis after the opening one or after an argument. -/
theorem readTerms_close {token : Token} {rest : List Token} {segments : List (List (Piece Term))}
    {frame : Frame Term} {frames : List (Frame Term)} {place : Place} (hkind : token.kind = .closing)
    (hplace : place ≠ .argument) :
    readTerms (token :: rest) ⟨segments, frame :: frames, place⟩ =
      readTerms rest (State.close ⟨segments, frame :: frames, place⟩) := by
  rw [readTerms, readTokens.eq_def terms none (token :: rest)]
  cases place with
  | first => simp only [hkind]; rfl
  | argument => exact absurd rfl hplace
  | separator => simp only [hkind]; rfl

/-- An `=` at the top level. -/
theorem readTerms_equals {token : Token} {rest : List Token} {segments : List (List (Piece Term))}
    {place : Place} (hkind : token.kind = .equals) :
    readTerms (token :: rest) ⟨segments, [], place⟩ =
      readTerms rest ⟨[] :: segments, [], place⟩ := by
  rw [readTerms, readTokens.eq_def terms none (token :: rest)]
  simp only [hkind]
  rfl

/-! ## Completeness -/

mutual

/-- The tokens of a derivation are read as its term. -/
theorem readTerms_tokens : ∀ (d : Derivation) (tokens rest : List Token) (st : State Term),
    tokens.map Token.kind = d.tokens → st.Open → NoOpening rest →
    readTerms (tokens ++ rest) st = readTerms rest (st.accept d.term d.isCall)
  | .text t q, tokens, rest, st, htokens, hopen, hrest => by
    rw [Derivation.tokens_text, List.map_eq_singleton_iff] at htokens
    obtain ⟨token, rfl, hkind⟩ := htokens
    rw [Derivation.term_text]
    exact readTerms_leaf hkind hopen hrest
  | .call name args, tokens, rest, st, htokens, hopen, hrest => by
    rw [Derivation.tokens_call, List.map_eq_cons_iff] at htokens
    obtain ⟨token, tail, rfl, hname, htail⟩ := htokens
    rw [List.map_eq_cons_iff] at htail
    obtain ⟨next, tail, rfl, hnext, htail⟩ := htail
    rw [List.map_eq_append_iff] at htail
    obtain ⟨inner, last, rfl, hinner, hlast⟩ := htail
    rw [List.map_eq_singleton_iff] at hlast
    obtain ⟨close, rfl, hclose⟩ := hlast
    simp only [List.cons_append, List.append_assoc, List.nil_append]
    rw [readTerms_open hname hnext hopen, Derivation.term_call]
    cases args with
    | nil =>
      rw [Derivation.argTokens_nil, List.map_eq_nil_iff] at hinner
      subst hinner
      exact readTerms_close hclose (by simp : Place.first ≠ .argument)
    | cons d ds =>
      have hargs := readTerms_args (d :: ds) inner (close :: rest) st.segments ⟨name, []⟩
        st.frames .first (by simp) hinner (by simp) (by simp [NoOpening, hclose])
      rw [State.openCall, hargs, readTerms_close hclose (by simp)]
      simp only [State.close, State.closeCall, List.append_nil, List.reverse_reverse]
      exact congrArg _ (State.accept_eq_of_frames rfl rfl _ _)

/-- The tokens of arguments are read as further arguments of the open call. -/
theorem readTerms_args : ∀ (ds : List Derivation) (tokens rest : List Token)
    (segments : List (List (Piece Term))) (frame : Frame Term) (frames : List (Frame Term)) (place : Place),
    ds ≠ [] → tokens.map Token.kind = Derivation.argTokens ds → place ≠ .separator →
    NoOpening rest →
    readTerms (tokens ++ rest) ⟨segments, frame :: frames, place⟩ =
      readTerms rest
        ⟨segments, ⟨frame.name, (ds.map Derivation.term).reverse ++ frame.args⟩ :: frames,
          .separator⟩
  | [], _, _, _, _, _, _, hds, _, _, _ => absurd rfl hds
  | [d], tokens, rest, segments, frame, frames, place, _, htokens, hplace, hrest => by
    rw [Derivation.argTokens_singleton] at htokens
    rw [readTerms_tokens d tokens rest _ htokens (Or.inr hplace) hrest]
    rfl
  | d :: e :: ds, tokens, rest, segments, frame, frames, place, _, htokens, hplace, hrest => by
    rw [Derivation.argTokens_cons_cons, List.map_eq_append_iff] at htokens
    obtain ⟨first, tail, rfl, hfirst, htail⟩ := htokens
    rw [List.map_eq_cons_iff] at htail
    obtain ⟨comma, others, rfl, hcomma, hothers⟩ := htail
    simp only [List.append_assoc, List.cons_append]
    rw [readTerms_tokens d first _ _ hfirst (Or.inr hplace) (by simp [NoOpening, hcomma])]
    rw [State.accept]
    simp only
    rw [readTerms_comma hcomma,
      readTerms_args (e :: ds) others rest segments _ frames .argument (by simp) hothers
        (by simp) hrest]
    simp

end

/-- The tokens of a row of terms are read as further pieces of the last segment. -/
theorem readTerms_row : ∀ (ds : List Derivation) (tokens rest : List Token)
    (segment : List (Piece Term)) (segments : List (List (Piece Term))) (place : Place),
    tokens.map Token.kind = Derivation.rowTokens ds → NoOpening rest →
    ∃ place', readTerms (tokens ++ rest) ⟨segment :: segments, [], place⟩ =
      readTerms rest
        ⟨((ds.map Derivation.piece).reverse ++ segment) :: segments, [], place'⟩
  | [], tokens, rest, segment, segments, place, htokens, _ => by
    rw [Derivation.rowTokens_nil, List.map_eq_nil_iff] at htokens
    subst htokens
    exact ⟨place, rfl⟩
  | d :: ds, tokens, rest, segment, segments, place, htokens, hrest => by
    rw [Derivation.rowTokens_cons, List.map_eq_append_iff] at htokens
    obtain ⟨first, others, rfl, hfirst, hothers⟩ := htokens
    have hnext : NoOpening (others ++ rest) := by
      cases ds with
      | nil =>
        rw [Derivation.rowTokens_nil, List.map_eq_nil_iff] at hothers
        simpa [hothers] using hrest
      | cons e es =>
        obtain ⟨text, quote, tail, htext⟩ := e.tokens_eq_text_cons
        rw [Derivation.rowTokens_cons, htext, List.cons_append, List.map_eq_cons_iff] at hothers
        obtain ⟨token, _, rfl, hkind, _⟩ := hothers
        simp [NoOpening, hkind]
    obtain ⟨place', hrow⟩ := readTerms_row ds others rest (d.piece :: segment) segments
      .separator hothers hrest
    refine ⟨place', ?_⟩
    rw [List.append_assoc, readTerms_tokens d first _ _ hfirst (Or.inl rfl) hnext]
    simpa [State.accept, Derivation.piece] using hrow

/-- The tokens of rows divided by `=` are read as segments. -/
theorem readTerms_rows : ∀ (rows : List (List Derivation)) (tokens : List Token)
    (segments : List (List (Piece Term))) (place : Place),
    rows ≠ [] → tokens.map Token.kind = Derivation.rowsTokens rows →
    ∃ place', readTerms tokens ⟨[] :: segments, [], place⟩ =
      .ok ⟨(rows.map fun row => (row.map Derivation.piece).reverse).reverse ++ segments, [],
        place'⟩
  | [], _, _, _, hrows, _ => absurd rfl hrows
  | [row], tokens, segments, place, _, htokens => by
    obtain ⟨place', hrow⟩ := readTerms_row row tokens [] [] segments place htokens trivial
    refine ⟨place', ?_⟩
    rw [List.append_nil] at hrow
    rw [hrow, readTerms, readTokens.eq_def]
    simp
  | row :: next :: rows, tokens, segments, place, _, htokens => by
    rw [Derivation.rowsTokens_cons_cons, List.map_eq_append_iff] at htokens
    obtain ⟨first, tail, rfl, hfirst, htail⟩ := htokens
    rw [List.map_eq_cons_iff] at htail
    obtain ⟨equals, others, rfl, hequals, hothers⟩ := htail
    obtain ⟨place₁, hrow⟩ := readTerms_row row first (equals :: others) [] segments place hfirst
      (by simp [NoOpening, hequals])
    obtain ⟨place₂, hrows⟩ := readTerms_rows (next :: rows) others
      ((row.map Derivation.piece).reverse :: segments) place₁ (by simp) hothers
    refine ⟨place₂, ?_⟩
    rw [hrow, List.append_nil, readTerms_equals hequals, hrows]
    simp

/-! ## Soundness -/

/-- A state with derivations in the places of terms. -/
structure Trace where
  segments : List (List Derivation)
  frames : List (String × List Derivation)
  place : Place

namespace Trace

/-- The state without its derivations. -/
def state (tr : Trace) : State Term where
  segments := tr.segments.map fun segment => segment.map Derivation.piece
  frames := tr.frames.map fun frame => ⟨frame.1, frame.2.map Derivation.term⟩
  place := tr.place

/-- The tokens of arguments, last first, each with the comma after it. -/
def heldTokens (args : List Derivation) : List Token.Kind :=
  args.reverse.flatMap fun d => d.tokens ++ [.comma]

/-- The tokens of the calls around the innermost one. -/
def outerTokens : List (String × List Derivation) → List Token.Kind
  | [] => []
  | (name, args) :: frames =>
    outerTokens frames ++ .text name none :: .opening :: heldTokens args

/-- The tokens of the open calls. -/
def callTokens : Place → List (String × List Derivation) → List Token.Kind
  | .separator, (name, last :: args) :: frames =>
    outerTokens frames ++ .text name none :: .opening :: (heldTokens args ++ last.tokens)
  | _, frames => outerTokens frames

/-- The tokens of the segments. -/
def segmentTokens (segments : List (List Derivation)) : List Token.Kind :=
  Derivation.rowsTokens (segments.reverse.map List.reverse)

/-- The tokens that led to the state. -/
def tokens (tr : Trace) : List Token.Kind :=
  segmentTokens tr.segments ++ callTokens tr.place tr.frames

/-- What every state of a run satisfies: there is a segment, right after an
opening parenthesis there is no argument, and where a comma or parenthesis is
due there is one. -/
structure Valid (tr : Trace) : Prop where
  segment : tr.segments ≠ []
  first : ∀ frame ∈ tr.frames.head?, tr.place = .first → frame.2 = []
  separator : ∀ frame ∈ tr.frames.head?, tr.place = .separator → frame.2 ≠ []

theorem segmentTokens_cons (segment : List Derivation) (segments : List (List Derivation)) :
    segmentTokens (segment :: segments) =
      (segments.reverse.map List.reverse).flatMap
        (fun row => Derivation.rowTokens row ++ [.equals]) ++
      Derivation.rowTokens segment.reverse := by
  rw [segmentTokens, List.reverse_cons, List.map_append, List.map_singleton,
    Derivation.rowsTokens_concat]

theorem callTokens_of_ne_separator {place : Place} (h : place ≠ .separator)
    (frames : List (String × List Derivation)) : callTokens place frames = outerTokens frames := by
  cases place with
  | first => rfl
  | argument => rfl
  | separator => exact absurd rfl h

/-! ### Each step adds its tokens -/

/-- A complete term arrives. -/
def accept (tr : Trace) (d : Derivation) : Trace :=
  match tr.frames, tr.segments with
  | (name, args) :: frames, segments => ⟨segments, (name, d :: args) :: frames, .separator⟩
  | [], segment :: segments => ⟨(d :: segment) :: segments, [], .separator⟩
  | [], [] => ⟨[[d]], [], .separator⟩

theorem state_accept (tr : Trace) (d : Derivation) :
    (tr.accept d).state = tr.state.accept d.term d.isCall := by
  obtain ⟨segments, frames, place⟩ := tr
  cases frames with
  | cons frame frames => rfl
  | nil => cases segments <;> rfl

theorem state_leaf (tr : Trace) (text : String) (quote : Option Quote) :
    (tr.accept (.text text quote)).state = (tr.state.addLeaf terms () text quote).1 := by
  rw [state_accept, Derivation.term_text]
  rfl

theorem valid_accept {tr : Trace} (hv : tr.Valid) (d : Derivation) : (tr.accept d).Valid := by
  obtain ⟨segments, frames, place⟩ := tr
  have hsegment : segments ≠ [] := hv.segment
  cases frames with
  | cons frame frames => constructor <;> simp [accept, hsegment]
  | nil => cases segments <;> constructor <;> simp [accept]

/-- The tokens of a term that arrives come behind those before it. -/
theorem tokens_accept {tr : Trace} (hv : tr.Valid) (hopen : tr.frames = [] ∨ tr.place ≠ .separator)
    (d : Derivation) : (tr.accept d).tokens = tr.tokens ++ d.tokens := by
  obtain ⟨segments, frames, place⟩ := tr
  cases frames with
  | cons frame frames =>
    obtain ⟨name, args⟩ := frame
    have hplace : place ≠ .separator := by simpa using hopen
    simp [accept, tokens, callTokens_of_ne_separator hplace, callTokens.eq_1, outerTokens]
  | nil =>
    cases segments with
    | nil => exact absurd rfl hv.segment
    | cons segment segments =>
      cases place <;>
        simp [accept, tokens, callTokens, outerTokens, segmentTokens_cons, Derivation.rowTokens]

/-- The innermost call is closed. -/
def close (tr : Trace) : Trace :=
  match tr.frames with
  | (name, args) :: frames =>
    accept ⟨tr.segments, frames, .argument⟩ (.call name args.reverse)
  | [] => tr

theorem state_close (tr : Trace) : tr.close.state = tr.state.close := by
  obtain ⟨segments, frames, place⟩ := tr
  cases frames with
  | nil => rfl
  | cons frame frames =>
    rw [close]
    simp only
    rw [state_accept, Derivation.term_call, List.map_reverse]
    exact State.accept_eq_of_frames rfl rfl _ _

/-- The calls around the innermost one, before it takes its place among them. -/
theorem Valid.outer {segments : List (List Derivation)} {frame : String × List Derivation}
    {frames : List (String × List Derivation)} {place : Place}
    (hv : Valid ⟨segments, frame :: frames, place⟩) : Valid ⟨segments, frames, .argument⟩ where
  segment := hv.segment
  first := by intro frame _ hplace; cases hplace
  separator := by intro frame _ hplace; cases hplace

/-- What every state satisfies is kept when a call is closed. -/
theorem valid_close {tr : Trace} (hv : tr.Valid) : tr.close.Valid := by
  obtain ⟨segments, frames, place⟩ := tr
  cases frames with
  | nil => exact hv
  | cons frame frames => exact valid_accept hv.outer _

theorem callTokens_eq_argTokens {segments : List (List Derivation)} {name : String}
    {args : List Derivation} {frames : List (String × List Derivation)} {place : Place}
    (hv : Valid ⟨segments, (name, args) :: frames, place⟩) (hplace : place ≠ .argument) :
    callTokens place ((name, args) :: frames) =
      outerTokens frames ++ .text name none :: .opening :: Derivation.argTokens args.reverse := by
  cases place with
  | argument => exact absurd rfl hplace
  | first =>
    have hargs : args = [] := hv.first (name, args) rfl rfl
    subst hargs
    simp [callTokens, outerTokens, heldTokens]
  | separator =>
    cases args with
    | nil => exact absurd rfl (hv.separator (name, []) rfl rfl)
    | cons last args =>
      rw [List.reverse_cons, Derivation.argTokens_concat]
      rfl

/-- A call that is closed has its tokens, and the closing parenthesis behind them. -/
theorem tokens_close {segments : List (List Derivation)} {name : String}
    {args : List Derivation} {frames : List (String × List Derivation)} {place : Place}
    (hv : Valid ⟨segments, (name, args) :: frames, place⟩) (hplace : place ≠ .argument) :
    (close ⟨segments, (name, args) :: frames, place⟩).tokens =
      tokens ⟨segments, (name, args) :: frames, place⟩ ++ [.closing] := by
  rw [close]
  simp only
  rw [tokens_accept hv.outer (Or.inr (by simp)), Derivation.tokens_call,
    tokens, tokens, callTokens_eq_argTokens hv hplace, callTokens_of_ne_separator (by simp)]
  simp

/-- A comma after an argument. -/
theorem tokens_comma {segments : List (List Derivation)} {name : String}
    {args : List Derivation} {frames : List (String × List Derivation)}
    (hv : Valid ⟨segments, (name, args) :: frames, .separator⟩) :
    tokens ⟨segments, (name, args) :: frames, .argument⟩ =
      tokens ⟨segments, (name, args) :: frames, .separator⟩ ++ [.comma] := by
  cases args with
  | nil => exact absurd rfl (hv.separator (name, []) rfl rfl)
  | cons last args => simp [tokens, callTokens, outerTokens, heldTokens]

theorem valid_comma {segments : List (List Derivation)} {frames : List (String × List Derivation)}
    {place : Place} (hv : Valid ⟨segments, frames, place⟩) :
    Valid ⟨segments, frames, .argument⟩ where
  segment := hv.segment
  first := by intro frame _ hplace; cases hplace
  separator := by intro frame _ hplace; cases hplace

/-- A call is opened. -/
theorem tokens_open (tr : Trace) (hopen : tr.frames = [] ∨ tr.place ≠ .separator) (name : String) :
    tokens ⟨tr.segments, (name, []) :: tr.frames, .first⟩ =
      tr.tokens ++ [.text name none, .opening] := by
  have hcalls : callTokens tr.place tr.frames = outerTokens tr.frames := by
    rcases hopen with hframes | hplace
    · rw [hframes]
      cases tr.place <;> rfl
    · exact callTokens_of_ne_separator hplace tr.frames
  rw [tokens, tokens, hcalls]
  simp [callTokens, outerTokens, heldTokens]

theorem valid_open {tr : Trace} (hv : tr.Valid) (name : String) :
    Valid ⟨tr.segments, (name, []) :: tr.frames, .first⟩ where
  segment := hv.segment
  first := by intro frame hframe _; simp at hframe; rw [← hframe]
  separator := by intro frame _ hplace; cases hplace

/-- An `=` at the top level. -/
theorem tokens_divide {segments : List (List Derivation)} {place : Place}
    (hv : Valid ⟨segments, [], place⟩) :
    tokens ⟨[] :: segments, [], place⟩ = tokens ⟨segments, [], place⟩ ++ [.equals] := by
  have hcalls : callTokens place [] = [] := by cases place <;> rfl
  cases segments with
  | nil => exact absurd rfl hv.segment
  | cons segment segments => simp [tokens, hcalls, segmentTokens_cons, Derivation.rowTokens]

theorem valid_divide {segments : List (List Derivation)} {place : Place} :
    Valid ⟨[] :: segments, [], place⟩ where
  segment := by simp
  first := by intro frame hframe; cases hframe
  separator := by intro frame hframe; cases hframe

/-! ### The whole run -/

/-- The run goes on from this state with the tokens `ks` and ends in `final`,
outside all calls. -/
def EndsIn (tr : Trace) (ks : List Token.Kind) (final : State Term) : Prop :=
  ∃ last : Trace, last.state = final ∧ last.frames = [] ∧ last.Valid ∧
    last.tokens = tr.tokens ++ ks

theorem EndsIn.of_step {tr next : Trace} {step ks : List Token.Kind} {final : State Term}
    (hstep : next.tokens = tr.tokens ++ step) (h : next.EndsIn ks final) :
    tr.EndsIn (step ++ ks) final := by
  obtain ⟨last, hlast, hframes, hvalid, htokens⟩ := h
  exact ⟨last, hlast, hframes, hvalid, by rw [htokens, hstep, List.append_assoc]⟩

/-- A closing parenthesis, right after the opening one or after an argument. -/
theorem EndsIn.of_close {tr : Trace} {frame : Frame Term} {frames : List (Frame Term)}
    {ks : List Token.Kind} {final : State Term} (h : tr.close.EndsIn ks final) (hv : tr.Valid)
    (hframes : tr.state.frames = frame :: frames) (hplace : tr.state.place ≠ .argument) :
    tr.EndsIn (.closing :: ks) final := by
  obtain ⟨segments, _ | ⟨⟨name, args⟩, calls⟩, place⟩ := tr
  · cases hframes
  · exact h.of_step (tokens_close hv hplace)

theorem frames_eq_nil {tr : Trace} (h : tr.state.frames = []) : tr.frames = [] := by
  simpa [state] using h

/-- Where the reader takes a text, a term may come. -/
theorem open_of_state {tr : Trace}
    (h : ∀ frame frames, tr.state.frames = frame :: frames → tr.state.place = .separator → False) :
    tr.frames = [] ∨ tr.place ≠ .separator := by
  obtain ⟨segments, frames, place⟩ := tr
  cases frames with
  | nil => exact Or.inl rfl
  | cons frame frames => exact Or.inr (h _ _ rfl)

end Trace

/-- A run of the reader that ends well ends outside all calls, with derivations
of all tokens it was given. -/
theorem readTerms_sound (tokens : List Token) (st : State Term) :
    ∀ (tr : Trace) (final : State Term), tr.state = st → tr.Valid →
      readTerms tokens st = .ok final → tr.EndsIn (tokens.map Token.kind) final := by
  -- along the reader's own recursion, with a trace that keeps the derivations of what was read
  unfold readTerms
  generalize () = nothing
  fun_induction readTokens terms none tokens st nothing with
  | case1 st _ fault hfault => cases hfault
  | case2 st _ frame frames hframes => intro tr final _ _ h; cases h
  | case3 st _ hframes =>
    intro tr final hst hv h
    cases h
    subst hst
    exact ⟨tr, rfl, Trace.frames_eq_nil hframes, hv, by simp⟩
  | case4 token tokens st _ hkind hframes ih =>
    intro tr final hst hv h
    subst hst
    obtain ⟨segments, frames, place⟩ := tr
    obtain rfl : frames = [] := Trace.frames_eq_nil hframes
    rw [List.map_cons, hkind]
    exact (ih ⟨[] :: segments, [], place⟩ final rfl Trace.valid_divide h).of_step
      (Trace.tokens_divide hv)
  | case5 token tokens st _ _ _ hkind hplace hframes ih =>
    intro tr final hst hv h
    subst hst
    obtain ⟨segments, _ | ⟨⟨name, args⟩, frames⟩, place⟩ := tr
    · cases hframes
    · obtain rfl : place = .separator := hplace
      rw [List.map_cons, hkind]
      exact (ih ⟨segments, (name, args) :: frames, .argument⟩ final rfl (Trace.valid_comma hv)
        h).of_step (Trace.tokens_comma hv)
  | case6 token tokens st _ _ _ hkind hplace hframes _ _ hclose ih =>
    intro tr final hst hv h
    subst hst
    obtain ⟨rfl, rfl⟩ := Prod.ext_iff.1 hclose
    have hend := ih tr.close final (Trace.state_close tr) (Trace.valid_close hv) h
    rw [List.map_cons, hkind]
    exact hend.of_close hv hframes (by simp [hplace])
  | case7 => intro tr final _ _ h; cases h
  | case8 token tokens st _ _ _ hkind hplace hframes _ _ hclose ih =>
    intro tr final hst hv h
    subst hst
    obtain ⟨rfl, rfl⟩ := Prod.ext_iff.1 hclose
    have hend := ih tr.close final (Trace.state_close tr) (Trace.valid_close hv) h
    rw [List.map_cons, hkind]
    exact hend.of_close hv hframes (by simp [hplace])
  | case9 token st _ text quote hkind fault hfault => cases hfault
  | case10 token st _ text quote hkind _ _ _ hleaf hopen ih =>
    intro tr final hst hv h
    subst hst
    obtain ⟨rfl, rfl⟩ := Prod.ext_iff.1 hleaf
    have hend := ih (tr.accept (.text text quote)) final (Trace.state_leaf tr text quote)
      (Trace.valid_accept hv _) h
    rw [List.map_cons, hkind]
    exact hend.of_step (Trace.tokens_accept hv (Trace.open_of_state hopen) _)
  | case11 token st _ text next rest hnext hopen hkind ih =>
    intro tr final hst hv h
    subst hst
    rw [List.map_cons, List.map_cons, hkind, hnext]
    exact (ih ⟨tr.segments, (text, []) :: tr.frames, .first⟩ final rfl (Trace.valid_open hv text)
      h).of_step (Trace.tokens_open tr (Trace.open_of_state hopen) text)
  | case12 => intro tr final _ _ h; cases h
  | case13 token st _ text quote hkind next rest _ _ hleaf hopen _ _ ih =>
    intro tr final hst hv h
    subst hst
    obtain ⟨rfl, rfl⟩ := Prod.ext_iff.1 hleaf
    have hend := ih (tr.accept (.text text quote)) final (Trace.state_leaf tr text quote)
      (Trace.valid_accept hv _) h
    rw [List.map_cons, hkind]
    exact hend.of_step (Trace.tokens_accept hv (Trace.open_of_state hopen) _)
  | case14 => intro tr final _ _ h; cases h
  | case15 => intro tr final _ _ h; cases h
  | case16 => intro tr final _ _ h; cases h
  | case17 => intro tr final _ _ h; cases h

/-- A fault at the end of the tokens is never read over. -/
theorem readTokens_fault {σ α : Type} (b : Builder σ α) (fault : LexicalFault)
    (tokens : List Token) (st : State α) (s : σ) (final : State α) :
    (readTokens b (some fault) tokens st s).1 ≠ .ok final := by
  fun_induction readTokens b (some fault) tokens st s with
  | case13 token st s text quote _ next rest _ _ hleaf _ _ _ ih =>
    obtain ⟨rfl, rfl⟩ := Prod.ext_iff.1 hleaf
    exact ih
  | _ => simp_all

/-- The reader ends well exactly on the tokens of rows of terms. -/
theorem readTerms_start_iff (tokens : List Token) (pieces : List (List (Piece Term))) :
    (∃ st, readTerms tokens .start = .ok st ∧ st.rows = pieces) ↔
      ∃ rows : List (List Derivation), rows ≠ [] ∧
        tokens.map Token.kind = Derivation.rowsTokens rows ∧
        rows.map (fun row => row.map Derivation.piece) = pieces := by
  constructor
  · rintro ⟨st, hread, rfl⟩
    obtain ⟨⟨segments, frames, place⟩, hstate, hframes, hvalid, htokens⟩ :=
      readTerms_sound tokens .start ⟨[[]], [], .first⟩ st rfl ⟨by simp, by simp, by simp⟩ hread
    obtain rfl : frames = [] := hframes
    refine ⟨segments.reverse.map List.reverse, by simpa using hvalid.segment, ?_, ?_⟩
    · have hcalls : Trace.callTokens place [] = [] := by cases place <;> rfl
      simpa [Trace.tokens, Trace.segmentTokens, hcalls, Trace.callTokens, Trace.outerTokens,
        Derivation.rowsTokens] using htokens.symm
    · rw [← hstate]
      simp [State.rows, Trace.state, List.map_reverse, Function.comp_def]
  · rintro ⟨rows, hne, htokens, rfl⟩
    obtain ⟨place, hread⟩ := readTerms_rows rows tokens [] .first hne htokens
    refine ⟨_, hread, ?_⟩
    simp [State.rows, Function.comp_def]

/-! ## From rows to the term -/

/-- A key is a single text. -/
theorem key_eq_ok_iff (fragment : String) (row : List Derivation) (t : Term) :
    key fragment (row.map Derivation.piece) = .ok t ↔
      ∃ text quote, row = [.text text quote] ∧ t = .leaf text quote := by
  match row with
  | [] => simp [key]
  | [.text text quote] =>
    constructor
    · intro h
      exact ⟨text, quote, rfl, by simpa [key, Derivation.piece, Derivation.isCall] using h.symm⟩
    · rintro ⟨_, _, h, rfl⟩
      cases h
      rfl
  | [.call name args] => simp [key, Derivation.piece, Derivation.isCall]
  | d :: e :: ds => simp [key]

/-- An operator is a single bare text. -/
theorem operator_eq_ok_iff (fragment : String) (row : List Derivation) (name : String) :
    operator terms () fragment (row.map Derivation.piece) = .ok name ↔
      row = [.text name none] := by
  match row with
  | [] => simp [operator]
  | [.text text none] =>
    simp [operator, Piece.word?, terms, Derivation.piece, Derivation.isCall, Term.leaf]
  | [.text text (some q)] => simp [operator, Piece.word?, terms, Derivation.piece, Term.leaf]
  | [.call name args] => simp [operator, Piece.word?, Derivation.piece, Derivation.isCall]
  | d :: e :: ds => simp [operator]

theorem values_pieces (ds : List Derivation) :
    values terms () (ds.map Derivation.piece) = (Derivation.values ds, ()) := by
  cases ds with
  | nil => rfl
  | cons d ds => simp [values, Derivation.values, Derivation.piece, Function.comp_def]

theorem compared_pieces (operator : String) (key : Term) (ds : List Derivation) :
    compared terms () operator key (ds.map Derivation.piece) =
      (.call operator (key :: Derivation.values ds), ()) := by
  rw [compared, values_pieces]
  rfl

theorem keyValues_pieces (text : String) (quote : Option Quote) (ds : List Derivation) :
    keyValues terms () (.leaf text quote) (ds.map Derivation.piece) =
      ((Sentence.keyed text quote ds).built, ()) := by
  match ds with
  | [] => rfl
  | [.text t q] => rfl
  | [.call name args] =>
    simp [keyValues, terms, Sentence.built, Derivation.piece, Derivation.isCall, Term.call]
  | d :: e :: ds =>
    rw [Sentence.built, ← compared_pieces, List.map_cons, List.map_cons, keyValues]
    · intro _ h
      simp at h
    · intro _ _ h
      cases h

/-- Rows are put together to a term exactly when they are those of a sentence,
and the term is the one that the sentence builds. -/
theorem assemble_eq_ok_iff (fragment : String) (rows : List (List Derivation)) (t : Term) :
    (assemble terms () fragment (rows.map fun row => row.map Derivation.piece)).1 = .ok t ↔
      ∃ f : Sentence, f.rows = rows ∧ f.built = t := by
  constructor
  · intro h
    match rows with
    | [] => cases h
    | [[]] => cases h
    | [[d]] => exact ⟨.term d, rfl, Except.ok.inj h⟩
    | [d :: e :: ds] => cases h
    | [left, right] =>
      simp only [List.map_cons, List.map_nil, assemble] at h
      cases hk : key fragment (left.map Derivation.piece) with
      | error fault =>
        rw [hk] at h
        cases h
      | ok k =>
        obtain ⟨text, quote, rfl, rfl⟩ := (key_eq_ok_iff fragment left k).1 hk
        rw [hk] at h
        simp only [keyValues_pieces] at h
        exact ⟨.keyed text quote right, rfl, Except.ok.inj h⟩
    | [left, middle, right] =>
      simp only [List.map_cons, List.map_nil, assemble] at h
      cases hk : key fragment (left.map Derivation.piece) with
      | error fault =>
        rw [hk] at h
        cases h
      | ok k =>
        cases ho : operator terms () fragment (middle.map Derivation.piece) with
        | error fault =>
          rw [hk, ho] at h
          cases h
        | ok o =>
          obtain ⟨text, quote, rfl, rfl⟩ := (key_eq_ok_iff fragment left k).1 hk
          obtain rfl := (operator_eq_ok_iff fragment middle o).1 ho
          rw [hk, ho] at h
          simp only [compared_pieces] at h
          exact ⟨.operated text quote o right, rfl, Except.ok.inj h⟩
    | _ :: _ :: _ :: _ :: _ => cases h
  · rintro ⟨f, rfl, rfl⟩
    cases f with
    | term d => rfl
    | keyed text quote ds =>
      have hkey := (key_eq_ok_iff fragment [.text text quote] _).2 ⟨text, quote, rfl, rfl⟩
      simp only [Sentence.rows, List.map_cons, List.map_nil, assemble] at hkey ⊢
      simp only [hkey, keyValues_pieces]
    | operated text quote operator ds =>
      have hkey := (key_eq_ok_iff fragment [.text text quote] _).2 ⟨text, quote, rfl, rfl⟩
      have hoperator := (operator_eq_ok_iff fragment [.text operator none] _).2 rfl
      simp only [Sentence.rows, List.map_cons, List.map_nil, assemble] at hkey hoperator ⊢
      simp only [hkey, hoperator, compared_pieces]
      rfl

/-! ## The language of fragments -/

/-- Reading a fragment to a term: the reader comes to the end of the tokens, and
its rows are put together to the term. -/
theorem parse_eq_ok_iff_rows (fragment : String) (t : Term) :
    parse fragment = .ok t ↔ ∃ tokens, Token.tokenize fragment = .ok tokens ∧
      ∃ st, readTerms tokens .start = .ok st ∧
        (assemble terms () fragment st.rows).1 = .ok t := by
  simp only [Token.tokenize_eq_ok_iff]
  unfold parse parseWith readTerms
  obtain ⟨tokens, ending⟩ := Token.stream fragment
  constructor
  · intro h
    cases ending with
    | some fault =>
      have hfault := readTokens_fault terms fault tokens .start ()
      rcases hread : readTokens terms (some fault) tokens .start () with ⟨failure | st, _⟩
      · simp [hread] at h
      · exact absurd (by rw [hread]) (hfault st)
    | none =>
      rcases hread : readTokens terms none tokens .start () with ⟨failure | st, _⟩
      · simp [hread] at h
      · simp only [hread] at h
        exact ⟨tokens, rfl, st, by rw [hread], h⟩
  · rintro ⟨tokens, htokens, st, hread, hterm⟩
    obtain ⟨rfl, rfl⟩ := Prod.mk.inj htokens
    rcases hresult : readTokens terms none tokens .start () with ⟨failure | last, _⟩
    · rw [hresult] at hread
      cases hread
    · rw [hresult] at hread
      obtain rfl := Except.ok.inj hread
      simpa only [hresult] using hterm

/-- A fragment is read as a term exactly when its tokens are those of a sentence
of the grammar that builds the term. -/
theorem parse_eq_ok_iff_sentence (fragment : String) (t : Term) :
    parse fragment = .ok t ↔ ∃ tokens, Token.tokenize fragment = .ok tokens ∧
      ∃ f : Sentence, tokens.map Token.kind = f.tokens ∧ f.built = t := by
  rw [parse_eq_ok_iff_rows]
  constructor
  · rintro ⟨tokens, htokens, st, hread, hterm⟩
    obtain ⟨rows, _, hrows, hpieces⟩ := (readTerms_start_iff tokens st.rows).1 ⟨st, hread, rfl⟩
    rw [← hpieces, assemble_eq_ok_iff] at hterm
    obtain ⟨f, rfl, hbuilt⟩ := hterm
    exact ⟨tokens, htokens, f, by rw [hrows, f.rowsTokens_rows], hbuilt⟩
  · rintro ⟨tokens, htokens, f, hkinds, hbuilt⟩
    have hrows : f.rows ≠ [] := by cases f <;> simp [Sentence.rows]
    obtain ⟨st, hread, hst⟩ := (readTerms_start_iff tokens _).2
      ⟨f.rows, hrows, by rw [hkinds, f.rowsTokens_rows], rfl⟩
    exact ⟨tokens, htokens, st, hread, by rw [hst, assemble_eq_ok_iff]; exact ⟨f, rfl, hbuilt⟩⟩

/-- A fragment is accepted exactly when it divides into the tokens of a sentence
of the grammar, and then it is read as the term that the sentence builds. -/
theorem parse_accepts_exactly_sentences (fragment : String) :
    ((∃ t, parse fragment = .ok t) ↔
      ∃ tokens, Token.tokenize fragment = .ok tokens ∧
        ∃ f : Sentence, tokens.map Token.kind = f.tokens) ∧
    ∀ tokens (f : Sentence), Token.tokenize fragment = .ok tokens →
      tokens.map Token.kind = f.tokens → parse fragment = .ok f.built := by
  constructor
  · constructor
    · rintro ⟨t, ht⟩
      obtain ⟨tokens, htokens, f, hf, _⟩ := (parse_eq_ok_iff_sentence fragment t).1 ht
      exact ⟨tokens, htokens, f, hf⟩
    · rintro ⟨tokens, htokens, f, hf⟩
      exact ⟨f.built, (parse_eq_ok_iff_sentence fragment _).2 ⟨tokens, htokens, f, hf, rfl⟩⟩
  · intro tokens f htokens hf
    exact (parse_eq_ok_iff_sentence fragment _).2 ⟨tokens, htokens, f, hf, rfl⟩

theorem parse_accepts_keyed_call :
    parse "age=gt('18 ',f())" = .ok (.call "gt" [.word "age", .leaf "18 " (some .single),
      .word "f"]) :=
  (parse_accepts_exactly_sentences "age=gt('18 ',f())").2
    [⟨.text "age" none, 0, 3⟩, ⟨.equals, 3, 4⟩, ⟨.text "gt" none, 4, 6⟩, ⟨.opening, 6, 7⟩,
      ⟨.text "18 " (some .single), 7, 12⟩, ⟨.comma, 12, 13⟩, ⟨.text "f" none, 13, 14⟩,
      ⟨.opening, 14, 15⟩, ⟨.closing, 15, 16⟩, ⟨.closing, 16, 17⟩]
    (.keyed "age" none [.call "gt" [.text "18 " (some .single), .call "f" []]])
    (eq_ok_of_toOption (by decide +kernel)) (by decide +kernel)

end ResourceQuery.Fragment

import Mathlib.Data.List.Perm.Basic
import ResourceQuery.Fragment

set_option autoImplicit false

/-!
# Fragments: the reader over any builder

The reader is written once over an arbitrary way of building terms, so what it
does with one builder can be told from what it does with another.  Two facts
carry this.

* *Invariants.*  A property of the state and of what has been built so far is kept by the
  reader when each step of the builder keeps it (`Builder.Keeps`).  The reader hands
  each thing that was built on once: either it becomes an argument, or it is still there at
  the end.  So the property may speak about what has not become an argument yet, and
  the order of these things does not matter.
* *Maps.*  When the steps of one builder are the images of the steps of another
  (`Builder.Maps`), so are the results: `parseWith_map`.  The two builders need to tell the
  same texts only of things that the invariant allows.

Both go through the recursion of the reader once, in `readTokens_keeps` and
`readTokens_map`.  After the last token, nothing but the rows of pieces matters.
-/

namespace ResourceQuery.Fragment

variable {σ σ' α α' : Type}

/-! ## What a builder keeps and what maps to it -/

/-- Each step of the builder keeps a property of the state and of what has been
built and is no argument yet. -/
structure Builder.Keeps (b : Builder σ α) (I : σ → List α → Prop) : Prop where
  perm : ∀ {s : σ} {xs ys : List α}, xs.Perm ys → I s xs → I s ys
  leaf : ∀ {s : σ} {xs : List α} (text : String) (quote : Option Quote), I s xs →
    I (b.leaf s text quote).2 ((b.leaf s text quote).1 :: xs)
  call : ∀ {s : σ} {args xs : List α} (name : String), I s (args ++ xs) →
    I (b.call s name args).2 ((b.call s name args).1 :: xs)
  prepend : ∀ {s : σ} {key call : α} {xs : List α}, I s (key :: call :: xs) →
    I (b.prepend s key call).2 ((b.prepend s key call).1 :: xs)

/-- The steps of the second builder are the images of the steps of the first
one, and it tells the same texts of what the property allows. -/
structure Builder.Maps (b : Builder σ α) (b' : Builder σ' α') (I : σ → List α → Prop)
    (f : σ → σ') (g : α → α') : Prop where
  leaf : ∀ (s : σ) (text : String) (quote : Option Quote),
    b'.leaf (f s) text quote = (b.leaf s text quote).map g f
  call : ∀ (s : σ) (name : String) (args : List α),
    b'.call (f s) name (args.map g) = (b.call s name args).map g f
  prepend : ∀ (s : σ) (key call : α),
    b'.prepend (f s) (g key) (g call) = (b.prepend s key call).map g f
  word? : ∀ {s : σ} {xs : List α}, I s xs → ∀ x ∈ xs, b'.word? (f s) (g x) = b.word? s x
  text : ∀ {s : σ} {xs : List α}, I s xs → ∀ x ∈ xs, b'.text (f s) (g x) = b.text s x

/-! ## States -/

/-- A piece with something else in the place of the term. -/
def Piece.map (g : α → α') (piece : Piece α) : Piece α' := ⟨g piece.item, piece.isCall⟩

/-- An open call with something else in the places of the arguments. -/
def Frame.map (g : α → α') (frame : Frame α) : Frame α' := ⟨frame.name, frame.args.map g⟩

/-- What the rows between the `=` signs hold. -/
def rowItems (rows : List (List (Piece α))) : List α :=
  rows.flatMap fun row => row.map Piece.item

namespace State

/-- A state with something else in the places of the terms. -/
def map (g : α → α') (st : State α) : State α' where
  segments := st.segments.map fun segment => segment.map (Piece.map g)
  frames := st.frames.map (Frame.map g)
  place := st.place

/-- What has been built and is no argument yet. -/
def items (st : State α) : List α :=
  rowItems st.segments ++ st.frames.flatMap Frame.args

@[simp] theorem frames_map (g : α → α') (st : State α) :
    (st.map g).frames = st.frames.map (Frame.map g) := rfl

@[simp] theorem place_map (g : α → α') (st : State α) : (st.map g).place = st.place := rfl

theorem map_accept (g : α → α') (st : State α) (x : α) (isCall : Bool) :
    (st.accept x isCall).map g = (st.map g).accept (g x) isCall := by
  obtain ⟨segments, frames, place⟩ := st
  cases frames with
  | cons frame frames => rfl
  | nil => cases segments <;> rfl

theorem map_addLeaf {b : Builder σ α} {b' : Builder σ' α'} {I : σ → List α → Prop}
    {f : σ → σ'} {g : α → α'} (h : b.Maps b' I f g) (s : σ) (st : State α) (text : String)
    (quote : Option Quote) :
    (st.map g).addLeaf b' (f s) text quote = (st.addLeaf b s text quote).map (State.map g) f := by
  simp only [addLeaf, h.leaf, Prod.map, map_accept]

theorem map_closeCall {b : Builder σ α} {b' : Builder σ' α'} {I : σ → List α → Prop}
    {f : σ → σ'} {g : α → α'} (h : b.Maps b' I f g) (s : σ) (st : State α) :
    (st.map g).closeCall b' (f s) = (st.closeCall b s).map (State.map g) f := by
  obtain ⟨segments, frames, place⟩ := st
  cases frames with
  | nil => rfl
  | cons frame frames =>
    have hcall := h.call s frame.name frame.args.reverse
    rw [List.map_reverse] at hcall
    simp only [closeCall, map, List.map_cons, Frame.map, hcall, Prod.map]
    exact congrArg (·, f (b.call s frame.name frame.args.reverse).2)
      (map_accept g ⟨segments, frames, .separator⟩ _ true).symm

/-- What is accepted is added. -/
theorem items_accept (st : State α) (x : α) (isCall : Bool) :
    (x :: st.items).Perm (st.accept x isCall).items := by
  obtain ⟨segments, frames, place⟩ := st
  cases frames with
  | cons frame frames => exact List.perm_middle.symm
  | nil => cases segments <;> exact .refl _

/-- The order in which the rows are read does not matter. -/
theorem items_rows (st : State α) :
    st.items.Perm (rowItems st.rows ++ st.frames.flatMap Frame.args) := by
  refine List.Perm.append_right _ ?_
  calc rowItems st.segments
    List.Perm _ (st.segments.flatMap fun segment => segment.reverse.map Piece.item) :=
      .flatMap_left _ fun segment _ => ((List.reverse_perm segment).map _).symm
    _ = (st.segments.map List.reverse).flatMap (fun row => row.map Piece.item) := by
      rw [List.flatMap_map]
    List.Perm _ (rowItems st.rows) :=
      (List.reverse_perm _).symm.flatMap_right _

theorem rows_map (g : α → α') (st : State α) :
    (st.map g).rows = st.rows.map fun row => row.map (Piece.map g) := by
  simp only [rows, map, List.map_reverse, List.map_map, Function.comp_def]

/-- The leaf of a text is added. -/
theorem keeps_addLeaf {b : Builder σ α} {I : σ → List α → Prop} (h : b.Keeps I) {s : σ}
    {st : State α} (hst : I s st.items) (text : String) (quote : Option Quote) :
    I (st.addLeaf b s text quote).2 (st.addLeaf b s text quote).1.items :=
  h.perm (items_accept st _ false) (h.leaf text quote hst)

/-- The arguments of the innermost call become part of it. -/
theorem keeps_closeCall {b : Builder σ α} {I : σ → List α → Prop} (h : b.Keeps I) {s : σ}
    {st : State α} (hst : I s st.items) :
    I (st.closeCall b s).2 (st.closeCall b s).1.items := by
  obtain ⟨segments, frames, place⟩ := st
  cases frames with
  | nil => exact hst
  | cons frame frames =>
    have hsplit : (items ⟨segments, frame :: frames, place⟩).Perm
        (frame.args.reverse ++ items ⟨segments, frames, .separator⟩) := by
      refine List.Perm.trans ?_ ((List.reverse_perm frame.args).symm.append_right _)
      simp only [items, List.flatMap_cons, ← List.append_assoc]
      exact List.perm_append_comm.append_right _
    exact h.perm (items_accept _ _ _) (h.call frame.name (h.perm hsplit hst))

end State

/-! ## Along the tokens -/

/-- The reader keeps what the builder keeps, whether the tokens are at fault or not. -/
theorem readTokens_keeps {b : Builder σ α} {I : σ → List α → Prop} (h : b.Keeps I)
    (ending : Option LexicalFault) (tokens : List Token) (st : State α) (s : σ)
    (hst : I s st.items) :
    ∃ xs, I (readTokens b ending tokens st s).2 xs ∧
      ∀ last, (readTokens b ending tokens st s).1 = .ok last → xs = last.items := by
  have hfault : ∀ {s : σ} {st : State α} {fault : Fault}, I s st.items →
      ∃ xs, I s xs ∧ ∀ last : State α, Except.error fault = Except.ok last → xs = last.items :=
    fun h => ⟨_, h, fun _ hlast => by cases hlast⟩
  fun_induction readTokens b ending tokens st s with
  | case1 | case2 | case7 | case9 | case12 | case14 | case15 | case16 | case17 =>
    exact hfault hst
  | case3 => exact ⟨_, hst, fun last hlast => by rw [Except.ok.inj hlast]⟩
  | case4 token tokens st s _ _ ih => exact ih hst
  | case5 token tokens st s _ _ _ _ _ ih => exact ih hst
  | case6 token tokens st s _ _ _ _ _ _ _ hclose ih =>
    obtain ⟨rfl, rfl⟩ := Prod.ext_iff.1 hclose
    exact ih (State.keeps_closeCall h hst)
  | case8 token tokens st s _ _ _ _ _ _ _ hclose ih =>
    obtain ⟨rfl, rfl⟩ := Prod.ext_iff.1 hclose
    exact ih (State.keeps_closeCall h hst)
  | case10 token st s text quote _ hending _ _ hleaf _ ih =>
    obtain ⟨rfl, rfl⟩ := Prod.ext_iff.1 hleaf
    subst hending
    exact ih (State.keeps_addLeaf h hst text quote)
  | case11 token st s text next rest _ _ _ ih => exact ih hst
  | case13 token st s text quote _ next rest _ _ hleaf _ _ _ ih =>
    obtain ⟨rfl, rfl⟩ := Prod.ext_iff.1 hleaf
    exact ih (State.keeps_addLeaf h hst text quote)

/-- The reader comes to the image of the state that it comes to with the other
builder, and fails with the same fault. -/
theorem readTokens_map {b : Builder σ α} {b' : Builder σ' α'} {I : σ → List α → Prop}
    {f : σ → σ'} {g : α → α'} (h : b.Maps b' I f g) (ending : Option LexicalFault)
    (tokens : List Token) (st : State α) (s : σ) :
    readTokens b' ending tokens (st.map g) (f s) =
      (readTokens b ending tokens st s).map (Except.map (State.map g)) f := by
  fun_induction readTokens b ending tokens st s with
  | case1 st s fault hending =>
    subst hending
    rw [readTokens.eq_def]
    rfl
  | case2 st s frame frames hframes hending =>
    subst hending
    rw [readTokens.eq_def]
    simp only [State.frames_map, hframes, List.map_cons]
    rfl
  | case3 st s hframes hending =>
    subst hending
    rw [readTokens.eq_def]
    simp only [State.frames_map, hframes, List.map_nil]
    rfl
  | case4 token tokens st s hkind hframes ih =>
    rw [readTokens.eq_def]
    simp only [State.frames_map, hframes, hkind, List.map_nil]
    exact ih
  | case5 token tokens st s frame frames hkind hplace hframes ih =>
    rw [readTokens.eq_def]
    simp only [State.map, hframes, hplace, hkind, List.map_cons] at ih ⊢
    exact ih
  | case6 token tokens st s _ _ hkind hplace hframes _ _ hclose ih =>
    rw [readTokens.eq_def]
    simp only [State.frames_map, State.place_map, hframes, hplace, hkind, List.map_cons]
    rw [State.map_closeCall h, hclose]
    exact ih
  | case7 token tokens st s frame frames hplace hframes hcomma hclosing =>
    rw [readTokens.eq_def]
    simp_all [Except.map]
  | case8 token tokens st s _ _ hkind hplace hframes _ _ hclose ih =>
    rw [readTokens.eq_def]
    simp only [State.frames_map, State.place_map, hframes, hplace, hkind, List.map_cons]
    rw [State.map_closeCall h, hclose]
    exact ih
  | case9 token st s text quote hkind fault hending hopen =>
    rw [readTokens.eq_def]
    cases hframes : st.frames <;> cases hplace : st.place <;> simp_all [Except.map]
  | case10 token st s text quote hkind hending _ _ hleaf hopen ih =>
    subst hending
    rw [← ih, readTokens.eq_def b' none [token]]
    cases hframes : st.frames <;> cases hplace : st.place <;> simp_all [State.map_addLeaf h]
  | case11 token st s text next rest hnext hopen hkind ih =>
    rw [← ih, readTokens.eq_def]
    cases hframes : st.frames <;> cases hplace : st.place <;>
      simp_all [State.openCall, State.map, Frame.map]
  | case12 token st s text next rest quote hnext hopen hkind =>
    rw [readTokens.eq_def]
    cases hframes : st.frames <;> cases hplace : st.place <;> simp_all [Except.map]
  | case13 token st s text quote hkind next rest _ _ hleaf hopen _ _ ih =>
    obtain ⟨rfl, rfl⟩ := Prod.ext_iff.1 hleaf
    refine Eq.trans ?_ ih
    rw [readTokens.eq_def b' ending (token :: next :: rest)]
    cases hframes : st.frames <;> cases hplace : st.place <;> simp_all [State.map_addLeaf h]
  | case14 token tokens st s hframes hequals htext =>
    rw [readTokens.eq_def]
    simp_all [Except.map]
  | case15 token tokens st s frame frames hkind hframes hplace =>
    rw [readTokens.eq_def]
    simp_all [Except.map, Frame.map]
  | case16 token tokens st s frame frames hkind hframes hseparator hfirst =>
    rw [readTokens.eq_def]
    simp_all [Except.map, Frame.map]
  | case17 token tokens st s frame frames hframes _ _ _ _ _ _ _ =>
    rw [readTokens.eq_def]
    simp_all [Except.map, Frame.map]

/-! ## From pieces to a term -/

theorem key_map (g : α → α') (fragment : String) (row : List (Piece α)) :
    key fragment (row.map (Piece.map g)) = (key fragment row).map g := by
  match row with
  | [] => rfl
  | [⟨item, false⟩] => rfl
  | [⟨item, true⟩] => rfl
  | first :: second :: rest => simp [key, Except.map]

/-- A key is the only piece before the `=`. -/
theorem key_eq_ok {fragment : String} {row : List (Piece α)} {x : α}
    (h : key fragment row = .ok x) : row.map Piece.item = [x] := by
  match row with
  | [] => cases h
  | [⟨item, false⟩] => rw [← Except.ok.inj h]; rfl
  | [⟨item, true⟩] => cases h
  | first :: second :: rest => simp [key] at h

section Steps

variable {b : Builder σ α} {I : σ → List α → Prop}

/-- The leaf that stands for no value is added. -/
theorem values_keeps (h : b.Keeps I) {s : σ} {row : List (Piece α)} {xs : List α}
    (hs : I s (row.map Piece.item ++ xs)) : I (values b s row).2 ((values b s row).1 ++ xs) := by
  cases row with
  | nil => exact h.leaf "" (some .double) hs
  | cons piece row => exact hs

theorem compared_keeps (h : b.Keeps I) {s : σ} (operator : String) {key : α}
    {row : List (Piece α)} {xs : List α} (hs : I s (key :: (row.map Piece.item ++ xs))) :
    I (compared b s operator key row).2 ((compared b s operator key row).1 :: xs) := by
  have hitems : I s (row.map Piece.item ++ key :: xs) := h.perm List.perm_middle.symm hs
  exact h.call operator (h.perm List.perm_middle (values_keeps h hitems))

theorem keyValues_keeps (h : b.Keeps I) {s : σ} {key : α} {row : List (Piece α)} {xs : List α}
    (hs : I s (key :: (row.map Piece.item ++ xs))) :
    I (keyValues b s key row).2 ((keyValues b s key row).1 :: xs) := by
  unfold keyValues
  split
  · exact h.prepend hs
  · exact compared_keeps h "eq" hs

theorem single_eq_ok {s : σ} {fragment : String} {row : List (Piece α)} {x : α}
    (h : single b s fragment row = .ok x) : row.map Piece.item = [x] := by
  match row with
  | [] => cases h
  | [piece] => rw [← Except.ok.inj h]; rfl
  | first :: second :: rest => cases h

/-- Putting the rows together keeps what the builder keeps, and the term that
comes out is no argument. -/
theorem assemble_keeps (h : b.Keeps I) {s : σ} (fragment : String) (rows : List (List (Piece α)))
    {xs : List α} (hs : I s (rowItems rows ++ xs)) :
    ∃ ys, I (assemble b s fragment rows).2 ys ∧
      ∀ x, (assemble b s fragment rows).1 = .ok x → x ∈ ys := by
  match rows with
  | [] => exact ⟨_, hs, fun x hx => by cases hx⟩
  | [only] =>
    refine ⟨_, hs, fun x hx => List.mem_append_left _ ?_⟩
    simp [rowItems, single_eq_ok hx]
  | [left, right] =>
    cases hkey : key fragment left with
    | error fault =>
      rw [assemble, hkey]
      exact ⟨_, hs, fun x hx => by cases hx⟩
    | ok key =>
      have hitems : I s (key :: (right.map Piece.item ++ xs)) := by
        simpa [rowItems, key_eq_ok hkey] using hs
      rw [assemble, hkey]
      exact ⟨_, keyValues_keeps h hitems, fun x hx => by rw [← Except.ok.inj hx]; exact List.mem_cons_self⟩
  | [left, middle, right] =>
    cases hkey : key fragment left with
    | error fault =>
      rw [assemble, hkey]
      exact ⟨_, hs, fun x hx => by cases hx⟩
    | ok key =>
      cases hoperator : operator b s fragment middle with
      | error fault =>
        rw [assemble, hkey]
        simp only [hoperator]
        exact ⟨_, hs, fun x hx => by cases hx⟩
      | ok name =>
        -- the word of the operator stays behind, beside the term
        have hitems : I s (key :: (right.map Piece.item ++ (middle.map Piece.item ++ xs))) := by
          refine h.perm ?_ hs
          simp only [rowItems, List.flatMap_cons, List.flatMap_nil, key_eq_ok hkey,
            List.append_nil, List.cons_append, List.nil_append, List.append_assoc]
          exact (List.perm_append_comm_assoc _ _ _).cons _
        rw [assemble, hkey]
        simp only [hoperator]
        exact ⟨_, compared_keeps h name hitems, fun x hx => by rw [← Except.ok.inj hx]; exact List.mem_cons_self⟩
  | first :: second :: third :: fourth :: rest => exact ⟨_, hs, fun x hx => by cases hx⟩

/-- What is built of a whole fragment: the builder keeps what it keeps, whether
the fragment is at fault or not, and the term that comes out is no argument. -/
theorem parseWith_keeps (h : b.Keeps I) {s : σ} (hs : I s []) (fragment : String) :
    ∃ xs, I (parseWith b s fragment).2 xs ∧
      ∀ x, (parseWith b s fragment).1 = .ok x → x ∈ xs := by
  unfold parseWith
  obtain ⟨xs, hxs, hlast⟩ := readTokens_keeps h (Token.stream fragment).2
    (Token.stream fragment).1 .start s hs
  rcases hread : readTokens b (Token.stream fragment).2 (Token.stream fragment).1 .start s
    with ⟨fault | last, s'⟩
  · rw [hread] at hxs
    simp only [hread]
    exact ⟨xs, hxs, fun x hx => by cases hx⟩
  · rw [hread] at hxs hlast
    simp only [hread]
    rw [hlast last rfl] at hxs
    exact assemble_keeps h fragment last.rows (h.perm last.items_rows hxs)

end Steps

section Images

variable {b : Builder σ α} {b' : Builder σ' α'} {I : σ → List α → Prop} {f : σ → σ'} {g : α → α'}

theorem values_map (h : b.Maps b' I f g) (s : σ) (row : List (Piece α)) :
    values b' (f s) (row.map (Piece.map g)) = (values b s row).map (List.map g) f := by
  cases row with
  | nil => simp only [List.map_nil, values, h.leaf, Prod.map, List.map_cons]
  | cons piece row => simp [values, Piece.map]

theorem compared_map (h : b.Maps b' I f g) (s : σ) (operator : String) (key : α)
    (row : List (Piece α)) :
    compared b' (f s) operator (g key) (row.map (Piece.map g)) =
      (compared b s operator key row).map g f := by
  simp only [compared, values_map h, Prod.map_fst, Prod.map_snd, ← List.map_cons, h.call]

theorem keyValues_map (h : b.Maps b' I f g) (s : σ) (key : α) (row : List (Piece α)) :
    keyValues b' (f s) (g key) (row.map (Piece.map g)) = (keyValues b s key row).map g f := by
  match row with
  | [] => exact compared_map h s "eq" key []
  | [⟨item, true⟩] => exact h.prepend s key item
  | [⟨item, false⟩] => exact compared_map h s "eq" key [⟨item, false⟩]
  | first :: second :: rest =>
    have hcompared := compared_map h s "eq" key (first :: second :: rest)
    simpa [keyValues] using hcompared

/-- The two builders tell the same operator. -/
theorem operator_map (h : b.Maps b' I f g) {s : σ} {xs : List α} (hs : I s xs)
    (fragment : String) {row : List (Piece α)} (hrow : ∀ x ∈ row.map Piece.item, x ∈ xs) :
    operator b' (f s) fragment (row.map (Piece.map g)) = operator b s fragment row := by
  have hwords : (row.map (Piece.map g)).map (Piece.word? b' (f s)) =
      row.map (Piece.word? b s) := by
    rw [List.map_map]
    refine List.map_congr_left fun piece hpiece => ?_
    have hword := h.word? hs piece.item (hrow _ (List.mem_map_of_mem hpiece))
    simp only [Function.comp_apply, Piece.word?, Piece.map, hword]
  rw [operator, hwords, operator]

theorem single_map (h : b.Maps b' I f g) {s : σ} {xs : List α} (hs : I s xs)
    (fragment : String) {row : List (Piece α)} (hrow : ∀ x ∈ row.map Piece.item, x ∈ xs) :
    single b' (f s) fragment (row.map (Piece.map g)) = (single b s fragment row).map g := by
  match row with
  | [] => rfl
  | [piece] => rfl
  | first :: second :: rest =>
    have htext := h.text hs second.item (hrow _ (by simp))
    simp only [List.map_cons, single, Piece.map, htext, Except.map]

/-- The term of the images of rows is the image of their term. -/
theorem assemble_map (h : b.Maps b' I f g) {s : σ} {xs : List α} (fragment : String)
    (rows : List (List (Piece α))) (hs : I s (rowItems rows ++ xs)) :
    assemble b' (f s) fragment (rows.map fun row => row.map (Piece.map g)) =
      (assemble b s fragment rows).map (Except.map g) f := by
  have hrow : ∀ row ∈ rows, ∀ x ∈ row.map Piece.item, x ∈ rowItems rows ++ xs :=
    fun row hrow x hx => List.mem_append_left _ (List.mem_flatMap.2 ⟨row, hrow, hx⟩)
  match rows with
  | [] => rfl
  | [only] =>
    have hsingle := single_map h hs fragment (hrow only List.mem_cons_self)
    simp only [List.map_cons, List.map_nil, assemble, hsingle, Prod.map]
  | [left, right] =>
    simp only [List.map_cons, List.map_nil, assemble, key_map]
    cases key fragment left with
    | error fault => rfl
    | ok key => simp only [Except.map, keyValues_map h, Prod.map]
  | [left, middle, right] =>
    have hoperator := operator_map h hs fragment (hrow middle (by simp))
    simp only [List.map_cons, List.map_nil, assemble, key_map, hoperator]
    cases key fragment left with
    | error fault => rfl
    | ok key =>
      cases operator b s fragment middle with
      | error fault => rfl
      | ok name => simp only [Except.map, compared_map h, Prod.map]
  | first :: second :: third :: fourth :: rest => rfl

/-- A fragment is read as the image of what it is read as with the other
builder, or fails with the same fault; and what is left behind is the image of
what that one leaves. -/
theorem parseWith_map (hkeeps : b.Keeps I) (h : b.Maps b' I f g) {s : σ} (hs : I s [])
    (fragment : String) :
    parseWith b' (f s) fragment = (parseWith b s fragment).map (Except.map g) f := by
  have hread := readTokens_map h (Token.stream fragment).2 (Token.stream fragment).1 .start s
  obtain ⟨xs, hxs, hlast⟩ := readTokens_keeps hkeeps (Token.stream fragment).2
    (Token.stream fragment).1 .start s hs
  unfold parseWith
  have hstart : State.map g .start = .start := rfl
  rw [hstart] at hread
  dsimp only
  rw [hread]
  rcases hresult : readTokens b (Token.stream fragment).2 (Token.stream fragment).1 .start s
    with ⟨fault | last, s'⟩
  · rfl
  · rw [hresult] at hxs hlast
    rw [hlast last rfl] at hxs
    simp only [Prod.map, Except.map, State.rows_map]
    exact assemble_map h fragment last.rows (hkeeps.perm last.items_rows hxs)

end Images

end ResourceQuery.Fragment

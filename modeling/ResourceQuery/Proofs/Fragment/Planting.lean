import ResourceQuery.Fragment.Planting
import ResourceQuery.Proofs.Fragment.Acceptance
import ResourceQuery.Proofs.Term.Additions

set_option autoImplicit false

/-!
# Fragments: what reading leaves in a store

A fragment is read into a store word by word.  Three builders stand beside the
one that the store reads with:

* the *recorder* does the same and writes down each edit, so the edits of reading a fragment
  are those of the reader itself, in its order;
* the *plots* are built in the same store, but name what has been built by whole terms with
  their ids;
* the *terms* are built without a store.

The first two take the same steps in the store, and forgetting the ids of plots
leads to the terms.  All that is to be said about reading into a store comes
from one invariant along the plots, `Built`: they are sown on fresh ids, none is
an argument of another word, and every edit so far was allowed where it was
made.  It holds at a fault as well, where the fragment leaves behind what had
been read.
-/

namespace ResourceQuery

open Fragment (parseWith terms)

namespace Store

/-! ## The edits of the reader -/

/-- A step of a builder, with its edits written down behind those before it. -/
def noted (edits more : List Edit) (step : WordId × Store) : WordId × Store × List Edit :=
  (step.1, step.2, edits ++ more)

/-- The words of a fragment are built in a store, and each edit is written down. -/
def recorder : Fragment.Builder (Store × List Edit) WordId where
  leaf r text quote := noted r.2 [.leaf text quote] (builder.leaf r.1 text quote)
  call r name args := noted r.2 (r.1.adoptEdits name none args) (builder.call r.1 name args)
  prepend r key call := noted r.2 [.insert call 0 key] (builder.prepend r.1 key call)
  word? r id := builder.word? r.1 id
  text r id := builder.text r.1 id

/-- The edits that read a fragment into a store. -/
def parseEdits (s : Store) (fragment : String) : List Edit :=
  (parseWith recorder (s, []) fragment).2.2

/-- Without what is written down, the recorder is the builder of the store. -/
theorem recorder_maps : recorder.Maps builder (fun _ _ => True) Prod.fst id where
  leaf _ _ _ := rfl
  call s name args := by rw [List.map_id]; rfl
  prepend _ _ _ := rfl
  word? _ _ _ := rfl
  text _ _ _ := rfl

theorem parse_eq_recorded (s : Store) (fragment : String) :
    s.parse fragment = ((parseWith recorder (s, []) fragment).1,
      (parseWith recorder (s, []) fragment).2.1) := by
  have hkeeps : recorder.Keeps fun _ _ => True :=
    ⟨fun _ _ => trivial, fun _ _ _ => trivial, fun _ _ => trivial, fun _ => trivial⟩
  have hmap := Fragment.parseWith_map hkeeps recorder_maps (s := (s, [])) trivial fragment
  rw [parse, hmap]
  rcases parseWith recorder (s, []) fragment with ⟨fault | id, r⟩ <;> rfl

/-! ## The plots of a fragment -/

/-- The words of a fragment are built in a store, and named by whole terms with their ids. -/
def plots : Fragment.Builder (Store × List Edit) Plot where
  leaf r text quote :=
    (.node (recorder.leaf r text quote).1 text quote [], (recorder.leaf r text quote).2)
  call r name Ps :=
    (.node (recorder.call r name (Ps.map Plot.id)).1 name none Ps,
      (recorder.call r name (Ps.map Plot.id)).2)
  prepend r K C :=
    (.node C.id C.term.token C.term.quote (K :: C.children), (recorder.prepend r K.id C.id).2)
  word? _ P := terms.word? () P.term
  text _ P := terms.text () P.term

/-- The plots are sown and no arguments of other words, and the edits that led
to them are allowed when the store was well-formed. -/
structure Built (s₀ : Store) (r : Store × List Edit) (Ps : List Plot) : Prop where
  sown : s₀.Sown Ps r.1
  roots : ∀ P ∈ Ps, r.1.parent P.id = none
  edited : s₀.WellFormed → Edited s₀.size s₀ r.2 r.1

variable {s₀ s : Store} {r : Store × List Edit} {Ps Qs : List Plot}

theorem Built.nil (s₀ : Store) : Built s₀ (s₀, []) [] :=
  ⟨.nil s₀, fun _ h => absurd h List.not_mem_nil, fun _ => .nil s₀⟩

/-- The roots of the plots may become arguments. -/
theorem Built.loose (h : Built s₀ r Ps) {P : Plot} (hP : P ∈ Ps) : Loose s₀.size r.1 P.id :=
  ⟨h.sown.fresh_id hP, (h.sown.shows P hP).id_lt, h.roots P hP⟩

/-- A new word over some of the plots. -/
theorem Built.adopt (h : Built s₀ r (Ps ++ Qs)) (name : String) (quote : Option Quote) :
    Built s₀ ((r.1.adopt name quote (Ps.map Plot.id)).2,
        r.2 ++ r.1.adoptEdits name quote (Ps.map Plot.id))
      (.node ⟨r.1.size⟩ name quote Ps :: Qs) := by
  have hnodup := h.sown.nodup_roots
  rw [List.map_append, List.nodup_append] at hnodup
  have hloose : ∀ c ∈ Ps.map Plot.id, Loose s₀.size r.1 c := by
    intro c hc
    obtain ⟨P, hP, rfl⟩ := List.mem_map.1 hc
    exact h.loose (List.mem_append_left _ hP)
  obtain ⟨hid, hsize, hroot, _, hothers⟩ :=
    adopt_spec r.1 name quote fun c hc => (hloose c hc).lt
  refine ⟨h.sown.adopt name quote, fun P hP => ?_, fun hs => (h.edited hs).append ?_⟩
  · rcases List.mem_cons.1 hP with rfl | hP
    · rw [parent, Plot.id, hroot]
    · -- a plot that is left aside is not among the arguments
      have haside : P.id ∉ Ps.map Plot.id := fun hmem =>
        hnodup.2.2 P.id hmem P.id (List.mem_map_of_mem hP) rfl
      have hlt := (h.sown.shows P (List.mem_append_right _ hP)).id_lt
      rw [parent, hothers P.id hlt haside]
      exact h.roots P (List.mem_append_right _ hP)
  · exact edited_adopt ((h.edited hs).wellFormed hs) h.sown.extension.size_le name quote
      hnodup.1 hloose

/-- A plot is put in front of the arguments of another. -/
theorem Built.insertFirst {K : Plot} {id : WordId} {token : String} {quote : Option Quote}
    (h : Built s₀ r (K :: .node id token quote Ps :: Qs)) :
    Built s₀ (r.1.insertChild id 0 K.id, r.2 ++ [.insert id 0 K.id])
      (.node id token quote (K :: Ps) :: Qs) := by
  have hcall : Loose s₀.size r.1 id := h.loose (List.mem_cons_of_mem K List.mem_cons_self)
  have hkey := h.loose List.mem_cons_self
  have hnodup := h.sown.nodup_roots
  rw [List.map_cons, List.map_cons, List.nodup_cons, List.nodup_cons] at hnodup
  have hne : K.id ≠ id := fun heq => hnodup.1 (heq ▸ List.mem_cons_self)
  refine ⟨h.sown.insertFirst, fun P hP => ?_, fun hs => (h.edited hs).append (.one ?_ ?_)⟩
  · have hP' : P.id ≠ K.id ∧ r.1.parent P.id = none := by
      rcases List.mem_cons.1 hP with rfl | hP
      · exact ⟨Ne.symm hne, hcall.root⟩
      · refine ⟨fun heq => hnodup.1 ?_, h.roots P ?_⟩
        · rw [← heq]
          exact List.mem_cons_of_mem _ (List.mem_map_of_mem hP)
        · exact List.mem_cons_of_mem K (List.mem_cons_of_mem _ hP)
    rw [parent_insertChild hcall.lt hkey.lt hne, if_neg hP'.1]
    exact hP'.2
  · -- a root stands above no other root
    refine ⟨hcall.lt, hkey.lt, hkey.root, ?_, Nat.zero_le _⟩
    rw [Bool.eq_false_iff]
    intro habove
    exact hne (((isAncestor_iff ((h.edited hs).wellFormed hs)).1 habove).eq_of_root hcall.root)
  · exact ⟨hcall.le, hkey.le⟩

theorem plots_keeps (s₀ : Store) : plots.Keeps (Built s₀) where
  perm hperm h :=
    ⟨h.sown.perm hperm, fun P hP => h.roots P (hperm.mem_iff.2 hP), h.edited⟩
  leaf {r Qs} text quote h := @Built.adopt s₀ r [] Qs h text quote
  call name h := h.adopt name none
  prepend {r K C Qs} h := by
    obtain ⟨id, token, quote, Ps⟩ := C
    have hcall := h.insertFirst
    simp only [plots, Plot.term_node]
    exact hcall

/-- The plots are built by the steps of the recorder. -/
theorem plots_maps_recorder (s₀ : Store) : plots.Maps recorder (Built s₀) id Plot.id where
  leaf _ _ _ := rfl
  call _ _ _ := rfl
  prepend _ _ _ := rfl
  word? h P hP := by
    have hshows := h.sown.shows P hP
    simp only [recorder, builder, plots, terms, isQuoted, id_eq, hshows.quote_eq,
      hshows.token_eq]
  text h P hP := by
    simp only [recorder, builder, plots, terms, id_eq, h.sown.read_eq hP]

/-- The plots without their ids are built as the terms are. -/
theorem plots_maps_terms (s₀ : Store) : plots.Maps terms (Built s₀) (fun _ => ()) Plot.term where
  leaf _ _ _ := by simp [plots, terms, Plot.term_node, Term.leaf]
  call _ _ _ := by simp [plots, terms, Plot.term_node, Term.call]
  prepend _ K C := by simp [plots, terms, Plot.term_node, Plot.children_term]
  word? _ _ _ := rfl
  text _ _ _ := rfl

/-! ## Reading into a store -/

/-- What reading a fragment leaves in a store: plots that are built by the edits
of the reader. The fragment is read as one of them, whose term is the one that
the fragment writes, or both readings fail with the same fault. -/
theorem parse_built (s : Store) (fragment : String) :
    ∃ Ps, Built s ((s.parse fragment).2, s.parseEdits fragment) Ps ∧
      ((∃ P ∈ Ps, (s.parse fragment).1 = .ok P.id ∧ Fragment.parse fragment = .ok P.term) ∨
        ∃ fault, (s.parse fragment).1 = .error fault ∧ Fragment.parse fragment = .error fault) := by
  have hrecorded := Fragment.parseWith_map (plots_keeps s) (plots_maps_recorder s) (.nil s) fragment
  have hterms := Fragment.parseWith_map (plots_keeps s) (plots_maps_terms s) (.nil s) fragment
  obtain ⟨Ps, hbuilt, hroot⟩ := Fragment.parseWith_keeps (plots_keeps s) (.nil s) fragment
  rw [id_eq] at hrecorded
  rw [parse_eq_recorded, parseEdits, Fragment.parse, hrecorded, hterms]
  refine ⟨Ps, hbuilt, ?_⟩
  rcases hresult : (parseWith plots (s, []) fragment).1 with fault | P
  · refine .inr ⟨fault, ?_, ?_⟩
    · rw [Prod.map_fst, hresult]
      rfl
    · rw [Prod.map_fst, hresult]
      rfl
  · refine .inl ⟨P, hroot P hresult, ?_, ?_⟩
    · rw [Prod.map_fst, hresult]
      rfl
    · rw [Prod.map_fst, hresult]
      rfl

/-- A fragment is read by allowed edits, also when it is at fault. -/
theorem edited_parse {n : Nat} (hs : s.WellFormed) (hn : n ≤ s.size) (fragment : String) :
    Edited n s (s.parseEdits fragment) (s.parse fragment).2 := by
  obtain ⟨_, hbuilt, _⟩ := parse_built s fragment
  exact (hbuilt.edited hs).mono hn

theorem extends_parse (s : Store) (fragment : String) : s.Extends (s.parse fragment).2 := by
  obtain ⟨_, hbuilt, _⟩ := parse_built s fragment
  exact hbuilt.sown.extension

/-- A fragment that is read leaves a plot of the term that it writes. -/
theorem sown_parse {s s' : Store} {fragment : String} {id : WordId}
    (h : s.parse fragment = (.ok id, s')) :
    ∃ P Ps, P ∈ Ps ∧ P.id = id ∧ Fragment.parse fragment = .ok P.term ∧ s.Sown Ps s' ∧
      s'.parent id = none := by
  obtain ⟨Ps, hbuilt, hresult⟩ := parse_built s fragment
  rw [h] at hbuilt hresult
  rcases hresult with ⟨P, hP, hid, hterm⟩ | ⟨fault, hfault, _⟩
  · obtain rfl := Except.ok.inj hid
    exact ⟨P, Ps, hP, rfl, hterm, hbuilt.sown, hbuilt.roots P hP⟩
  · cases hfault

/-- A fragment that is read leaves a loose word. -/
theorem loose_parse {s s' : Store} {fragment : String} {id : WordId} {n : Nat} (hn : n ≤ s.size)
    (h : s.parse fragment = (.ok id, s')) : Loose n s' id := by
  obtain ⟨P, Ps, hP, rfl, _, hsown, hroot⟩ := sown_parse h
  exact ⟨Nat.le_trans hn (hsown.fresh_id hP), (hsown.shows P hP).id_lt, hroot⟩

/-- What a store reads a fragment as is the term that the fragment writes. -/
theorem parse_of_read {s s' : Store} {fragment : String} {id : WordId}
    (h : s.parse fragment = (.ok id, s')) : Fragment.parse fragment = .ok (s'.read id) := by
  obtain ⟨P, Ps, hP, rfl, hterm, hsown, _⟩ := sown_parse h
  rw [hterm, hsown.read_eq hP]

/-- A store reads no fragment that writes no term. -/
theorem parse_error_of_read {s s' : Store} {fragment : String} {fault : Fault}
    (h : s.parse fragment = (.error fault, s')) : Fragment.parse fragment = .error fault := by
  obtain ⟨Ps, _, hresult⟩ := parse_built s fragment
  rw [h] at hresult
  rcases hresult with ⟨P, _, hid, _⟩ | ⟨fault', hfault, hterm⟩
  · cases hid
  · rw [hterm, Except.error.inj hfault]

/-- A fragment that writes a term is in the store as that term. -/
theorem read_parse {s : Store} {fragment : String} {t : Term}
    (h : Fragment.parse fragment = .ok t) :
    ∃ id s', s.parse fragment = (.ok id, s') ∧ s'.read id = t := by
  rcases hparse : s.parse fragment with ⟨fault | id, s'⟩
  · rw [parse_error_of_read hparse] at h
    cases h
  · rw [parse_of_read hparse] at h
    exact ⟨id, s', rfl, Except.ok.inj h⟩

/-- A term that was read stays as it is when the store grows. -/
theorem read_of_parse {s s₁ s₂ : Store} {fragment : String} {id : WordId}
    (h : s.parse fragment = (.ok id, s₁)) (hext : s₁.Extends s₂) : s₂.read id = s₁.read id := by
  obtain ⟨P, Ps, hP, rfl, _, hsown, _⟩ := sown_parse h
  have hnodup := (List.pairwise_flatMap.1 hsown.nodup).1 P hP
  rw [hsown.read_eq hP, (hext.shows (hsown.shows P hP)).read_eq hnodup]

/-- The term at the root of what was read is the one that the fragment writes,
and a fault is that of the fragment. -/
theorem map_read_parse (s : Store) (fragment : String) :
    (s.parse fragment).2.read <$> (s.parse fragment).1 = Fragment.parse fragment := by
  rcases hparse : s.parse fragment with ⟨fault | id, s'⟩
  · rw [parse_error_of_read hparse]
    rfl
  · rw [parse_of_read hparse]
    rfl

/-! ## Calls behind a key -/

/-- The tokens of rows that end well are read as plots of the terms of the rows. -/
theorem readTokens_plots (s : Store) {tokens : List Token}
    {rows : List (List Fragment.Derivation)} (hne : rows ≠ [])
    (htokens : tokens.map Token.kind = Fragment.Derivation.rowsTokens rows) :
    ∃ st r, Fragment.readTokens plots none tokens .start (s, []) = (.ok st, r) ∧
      st.rows.map (fun row => row.map (Fragment.Piece.map Plot.term)) =
        rows.map fun row => row.map Fragment.Derivation.piece := by
  obtain ⟨last, hlast, hrows⟩ := (Fragment.readTerms_start_iff tokens _).2 ⟨rows, hne, htokens, rfl⟩
  have hmap := Fragment.readTokens_map (plots_maps_terms s) none tokens .start (s, [])
  have hstart : Fragment.State.map Plot.term .start = .start := rfl
  rw [hstart] at hmap
  rw [Fragment.readTerms, hmap] at hlast
  rcases hread : Fragment.readTokens plots none tokens .start (s, []) with ⟨fault | st, r⟩
  · rw [hread] at hlast
    cases hlast
  · rw [hread] at hlast
    have hst : st.map Plot.term = last := Except.ok.inj hlast
    exact ⟨st, r, rfl, by rw [← Fragment.State.rows_map, hst, hrows]⟩

/-- A call behind a key is complete before the key is put in front of its
arguments: that is the last edit. -/
theorem parseEdits_keyed_call (s : Store) {fragment : String} {tokens : List Token}
    {key : String} {quote : Option Quote} {name : String} {args : List Fragment.Derivation}
    (htokens : Token.tokenize fragment = .ok tokens)
    (hkinds : tokens.map Token.kind =
      (Fragment.Sentence.keyed key quote [.call name args]).tokens) :
    ∃ edits call word, (s.parse fragment).1 = .ok call ∧
      s.parseEdits fragment = edits ++ [.insert call 0 word] := by
  rw [← Fragment.Sentence.rowsTokens_rows] at hkinds
  obtain ⟨st, r, hread, hrows⟩ := readTokens_plots s (by simp [Fragment.Sentence.rows]) hkinds
  -- the rows of the plots have the shape of those of the sentence
  obtain ⟨K, C, hplots⟩ : ∃ K C : Plot, st.rows = [[⟨K, false⟩], [⟨C, true⟩]] := by
    simp only [Fragment.Sentence.rows, List.map_cons, List.map_nil, List.map_eq_cons_iff,
      List.map_eq_nil_iff] at hrows
    obtain ⟨_, _, hst, ⟨⟨K, isCall⟩, _, rfl, hkey, rfl⟩, _, _, rfl,
      ⟨⟨C, isCall'⟩, _, rfl, hcall, rfl⟩, rfl⟩ := hrows
    obtain rfl : isCall = false := congrArg Fragment.Piece.isCall hkey
    obtain rfl : isCall' = true := congrArg Fragment.Piece.isCall hcall
    exact ⟨K, C, hst⟩
  have hstream := (Token.tokenize_eq_ok_iff fragment tokens).1 htokens
  have hlast : parseWith plots (s, []) fragment =
      (.ok (plots.prepend r K C).1, (plots.prepend r K C).2) := by
    rw [parseWith, hstream]
    simp only [hread, hplots, Fragment.assemble, Fragment.key, Fragment.keyValues]
  have hrecorded := Fragment.parseWith_map (plots_keeps s) (plots_maps_recorder s) (.nil s) fragment
  rw [id_eq] at hrecorded
  rw [parse_eq_recorded, parseEdits, hrecorded, hlast]
  exact ⟨r.2, C.id, K.id, rfl, rfl⟩

end Store
end ResourceQuery

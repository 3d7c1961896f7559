import ResourceQuery.Proofs.FilterText.Reader
import ResourceQuery.Proofs.Statement.Truth

set_option autoImplicit false

/-!
# Filter texts: what signs mean

Markers are kept apart as signs of their own until their values are put in.
Signs *mean* a verdict at a level of the grammar if they have a reading there
whose truth is the verdict, for all values and all truths of the atoms.

The rules for meanings are those of the grammar, one for each connective, with
the verdict computed from the parts.  Atoms are kept apart by their positive
form, so that `NOT` inside an atom and outside of it come to the same.
-/

namespace ResourceQuery.FilterText

/-! ## Markers among signs -/

namespace Sign

/-- The sign as it is written: a marker is a word. -/
def spelled (marker : Nat → String) : Sign → Sign
  | .marker k => .word (marker k)
  | s => s

/-- The sign with the value of a marker in its place. -/
def ground (values : Bindings) : Sign → Sign
  | .marker k => .value (values.at k)
  | s => s

/-- The number of a marker. -/
def marker? : Sign → Option Nat
  | .marker k => some k
  | _ => none

/-- The sign is read as it is and taken for no marker. -/
def isFixed (r : Reader) : Sign → Bool
  | .word w => !r.isMarker w
  | .quoted _ | .mark _ => true
  | .marker _ | .value _ => false

theorem spelled_of_isFixed {r : Reader} {s : Sign} (h : s.isFixed r = true)
    (marker : Nat → String) : s.spelled marker = s := by
  cases s with
  | marker k => cases h
  | _ => rfl

theorem ground_of_isFixed {r : Reader} {s : Sign} (h : s.isFixed r = true) (values : Bindings) :
    s.ground values = s := by
  cases s with
  | marker k => cases h
  | _ => rfl

theorem marker?_of_isFixed {r : Reader} {s : Sign} (h : s.isFixed r = true) : s.marker? = none := by
  cases s with
  | marker k => cases h
  | _ => rfl

end Sign

/-- The numbers of the markers among signs. -/
def markers (ss : List Sign) : List Nat := ss.filterMap Sign.marker?

@[simp] theorem markers_nil : markers [] = [] := rfl

@[simp] theorem markers_word (text : String) (ss : List Sign) :
    markers (.word text :: ss) = markers ss := rfl

@[simp] theorem markers_quoted (text : String) (ss : List Sign) :
    markers (.quoted text :: ss) = markers ss := rfl

@[simp] theorem markers_mark (c : Char) (ss : List Sign) : markers (.mark c :: ss) = markers ss :=
  rfl

@[simp] theorem markers_marker (k : Nat) (ss : List Sign) :
    markers (.marker k :: ss) = k :: markers ss := rfl

@[simp] theorem markers_append (ss tt : List Sign) : markers (ss ++ tt) = markers ss ++ markers tt :=
  List.filterMap_append

section Fixed

variable {r : Reader} {gs : List Sign} (h : ∀ s ∈ gs, s.isFixed r = true)

include h

theorem map_spelled_of_fixed (marker : Nat → String) : gs.map (Sign.spelled marker) = gs :=
  (List.map_congr_left fun s hs => Sign.spelled_of_isFixed (h s hs) marker).trans (List.map_id' gs)

theorem map_ground_of_fixed (values : Bindings) : gs.map (Sign.ground values) = gs :=
  (List.map_congr_left fun s hs => Sign.ground_of_isFixed (h s hs) values).trans (List.map_id' gs)

theorem markers_of_fixed : markers gs = [] :=
  List.filterMap_eq_nil_iff.2 fun s hs => Sign.marker?_of_isFixed (h s hs)

end Fixed

/-- Markers that are numbered one after the other are replaced by their values,
each by the one in its turn. -/
theorem number_spelled {r : Reader} {marker : Nat → String}
    (hmarker : ∀ k, r.isMarker (marker k) = true) {values : Bindings} {ss : List Sign} :
    ∀ {n len : Nat}, (∀ s ∈ ss, s.isFixed r = true ∨ ∃ k, s = .marker k) →
      markers ss = List.range' (n + 1) len → n + len ≤ values.length →
      r.number marker values n (ss.map (Sign.spelled marker)) =
        some (ss.map (Sign.ground values)) := by
  induction ss with
  | nil => intro n len _ _ _; rfl
  | cons s ss ih =>
    intro n len hplain hnumbers hlen
    have htail := fun x hx => hplain x (List.mem_cons_of_mem s hx)
    rw [List.map_cons, List.map_cons]
    -- only a marker moves the count on
    rcases hplain s List.mem_cons_self with hfixed | ⟨k, rfl⟩
    · have hnumbers : markers ss = List.range' (n + 1) len := by
        rwa [markers, List.filterMap_cons, Sign.marker?_of_isFixed hfixed] at hnumbers
      have hrest := ih htail hnumbers hlen
      rw [Sign.spelled_of_isFixed hfixed, Sign.ground_of_isFixed hfixed]
      cases s with
      | word w =>
        have hword : r.isMarker w = false := by simpa [Sign.isFixed] using hfixed
        rw [Reader.number, hword, hrest]
        rfl
      | quoted text => rw [Reader.number, hrest, Option.map_some]; exact fun _ h => by cases h
      | mark c => rw [Reader.number, hrest, Option.map_some]; exact fun _ h => by cases h
      | marker k => cases hfixed
      | value v => cases hfixed
    · cases len with
      | zero => cases hnumbers
      | succ len =>
        rw [List.range'_succ] at hnumbers
        obtain ⟨rfl, hrest⟩ := List.cons.inj hnumbers
        have hlt : n < values.length := by omega
        have hvalue : values.at (n + 1) = values[n].2 := by
          rw [Bindings.at, Nat.add_sub_cancel, List.getElem?_eq_getElem hlt]
          rfl
        rw [Sign.spelled, Sign.ground, Reader.number, hmarker, if_pos rfl,
          List.getElem?_eq_getElem hlt, hvalue]
        dsimp only
        rw [if_pos rfl, ih htail hrest (by omega), Option.map_some]

/-! ## Verdicts -/

/-- What a filter comes to, by the bound values and the truth of its atoms. -/
abbrev Verdict := Bindings → (List Sign → Bool) → Bool

/-- The signs have a reading at the level, and its truth is the verdict. -/
def Means (lvl : Level) (ss : List Sign) (verdict : Verdict) : Prop :=
  ∀ values, ∃ φ, Reads lvl (ss.map (Sign.ground values)) φ ∧ ∀ ρ, φ.eval ρ = verdict values ρ

/-- Signs in parentheses. -/
def enclosed (ss : List Sign) : List Sign := .mark '(' :: (ss ++ [.mark ')'])

@[simp] theorem markers_enclosed (ss : List Sign) : markers (enclosed ss) = markers ss := by
  simp [enclosed]

theorem map_ground_enclosed (values : Bindings) (ss : List Sign) :
    (enclosed ss).map (Sign.ground values) = enclosed (ss.map (Sign.ground values)) := by
  rw [enclosed, List.map_cons, List.map_append]
  rfl

namespace Means

variable {lvl : Level} {ss tt uu : List Sign} {v v' v'' : Verdict}

theorem congr (h : Means lvl ss v) (hv : ∀ values ρ, v values ρ = v' values ρ) :
    Means lvl ss v' := by
  intro values
  obtain ⟨φ, hφ, heval⟩ := h values
  exact ⟨φ, hφ, fun ρ => (heval ρ).trans (hv values ρ)⟩

theorem conjunct (h : Means .negation ss v) : Means .conjunction ss v := by
  intro values
  obtain ⟨φ, hφ, heval⟩ := h values
  exact ⟨φ, .conjunct hφ, heval⟩

theorem disjunct (h : Means .conjunction ss v) : Means .disjunction ss v := by
  intro values
  obtain ⟨φ, hφ, heval⟩ := h values
  exact ⟨φ, .disjunct hφ, heval⟩

theorem both (h : Means .negation ss v) (h' : Means .conjunction tt v') :
    Means .conjunction (ss ++ .word "AND" :: tt) fun values ρ => v values ρ && v' values ρ := by
  intro values
  obtain ⟨φ, hφ, heval⟩ := h values
  obtain ⟨ψ, hψ, heval'⟩ := h' values
  refine ⟨.both φ ψ, ?_, fun ρ => by rw [Formula.eval, heval, heval']⟩
  rw [List.map_append]
  exact .both hφ hψ

theorem either (h : Means .conjunction ss v) (h' : Means .disjunction tt v') :
    Means .disjunction (ss ++ .word "OR" :: tt) fun values ρ => v values ρ || v' values ρ := by
  intro values
  obtain ⟨φ, hφ, heval⟩ := h values
  obtain ⟨ψ, hψ, heval'⟩ := h' values
  refine ⟨.either φ ψ, ?_, fun ρ => by rw [Formula.eval, heval, heval']⟩
  rw [List.map_append]
  exact .either hφ hψ

theorem enclosed (h : Means .disjunction ss v) : Means .negation (enclosed ss) v := by
  intro values
  obtain ⟨φ, hφ, heval⟩ := h values
  refine ⟨φ, ?_, heval⟩
  rw [map_ground_enclosed]
  exact .enclosed hφ

theorem not (h : Means .negation ss v) :
    Means .negation (.word "NOT" :: ss) fun values ρ => !v values ρ := by
  intro values
  obtain ⟨φ, hφ, heval⟩ := h values
  exact ⟨.not φ, .not hφ, fun ρ => by rw [Formula.eval, heval]⟩

theorem choice (h : Means .disjunction ss v) (h' : Means .disjunction tt v')
    (h'' : Means .disjunction uu v'') :
    Means .negation (FilterText.enclosed (ss ++ .mark '?' :: (tt ++ .mark ':' :: uu)))
      fun values ρ => if v values ρ then v' values ρ else v'' values ρ := by
  intro values
  obtain ⟨φ, hφ, heval⟩ := h values
  obtain ⟨ψ, hψ, heval'⟩ := h' values
  obtain ⟨χ, hχ, heval''⟩ := h'' values
  refine ⟨.choice φ ψ χ, ?_, fun ρ => by rw [Formula.eval, heval, heval', heval'']⟩
  have hreads := Reads.choice hφ hψ hχ
  simpa [FilterText.enclosed, Sign.ground] using hreads

end Means

/-! ## Atoms -/

/-- The signs in their positive form. -/
def positives (signs : List Sign) : List Sign := signs.filterMap Sign.positive

/-- The signs are in their positive form. -/
def affirms (signs : List Sign) : Bool := signs.all fun s => s.positive == some s

theorem positives_append (xs ys : List Sign) : positives (xs ++ ys) = positives xs ++ positives ys :=
  List.filterMap_append

theorem affirms_append (xs ys : List Sign) : affirms (xs ++ ys) = (affirms xs && affirms ys) :=
  List.all_append

theorem positives_of_affirms {signs : List Sign} (h : affirms signs = true) :
    positives signs = signs := by
  induction signs with
  | nil => rfl
  | cons s signs ih =>
    rw [affirms, List.all_cons, Bool.and_eq_true, beq_iff_eq] at h
    rw [positives, List.filterMap_cons, h.1]
    exact congrArg _ (ih h.2)

theorem eval_ofAtom (ρ : List Sign → Bool) (signs : List Sign) :
    (Formula.ofAtom signs).eval ρ = (ρ (positives signs) == affirms signs) := rfl

theorem affirms_enclosed (ss : List Sign) : affirms (enclosed ss) = affirms ss := by
  have hclose : affirms [.mark ')'] = true := by decide
  have hcons : affirms (enclosed ss) = affirms (ss ++ [.mark ')']) := rfl
  rw [hcons, affirms_append, hclose, Bool.and_true]

/-- The signs stand in an atom as they are: they are flat, in positive form and no markers. -/
structure Steady (r : Reader) (ss : List Sign) : Prop where
  fixed : ∀ s ∈ ss, s.isFixed r = true
  flat : ∀ s ∈ ss, s.isFlat = true
  positive : affirms ss = true

theorem isFlat_value (value : Value) : (Sign.value value).isFlat = true := by
  simp [Sign.isFlat]

theorem positive_value (value : Value) : (Sign.value value).positive = some (.value value) := by
  simp [Sign.positive]

theorem affirms_value (value : Value) : affirms [.value value] = true := by
  simp [affirms, positive_value]

/-- A value is as flat as its marker. -/
theorem isFlat_ground {ss : List Sign} (h : ∀ s ∈ ss, s.isFlat = true) (values : Bindings) :
    ∀ s ∈ ss.map (Sign.ground values), s.isFlat = true := by
  intro x hx
  obtain ⟨s, hs, rfl⟩ := List.mem_map.1 hx
  cases s with
  | marker k => exact isFlat_value _
  | _ => exact h _ hs

/-- An atom means the truth of its positive form, or denies it. -/
theorem Means.atom {ss : List Sign} (h : ∀ values, IsAtom (ss.map (Sign.ground values))) :
    Means .negation ss fun values ρ =>
      ρ (positives (ss.map (Sign.ground values))) == affirms (ss.map (Sign.ground values)) :=
  fun values => ⟨_, .atom (h values), fun ρ => eval_ofAtom ρ _⟩

/-- A function of flat arguments in positive form. -/
theorem Means.call {f : String} {ss : List Sign} (hf : Sign.word f ≠ .word "NOT")
    (hflat : (Sign.word f).isFlat = true) (hss : ∀ s ∈ ss, s.isFlat = true)
    (haffirms : ∀ values, affirms (ss.map (Sign.ground values)) = true) :
    Means .negation (.word f :: FilterText.enclosed ss) fun values ρ =>
      ρ (positives [.word f] ++ FilterText.enclosed (ss.map (Sign.ground values))) ==
        affirms [.word f] := by
  have hground : ∀ values, (Sign.word f :: FilterText.enclosed ss).map (Sign.ground values) =
      [.word f] ++ FilterText.enclosed (ss.map (Sign.ground values)) := by
    intro values
    rw [List.map_cons, map_ground_enclosed]
    rfl
  refine (Means.atom fun values => ?_).congr fun values ρ => ?_
  · rw [hground]
    exact .call hf hflat (fun _ hx => absurd hx List.not_mem_nil) (isFlat_ground hss values)
  · have hinside := (affirms_enclosed _).trans (haffirms values)
    rw [hground, positives_append, affirms_append, positives_of_affirms hinside, hinside,
      Bool.and_true]

namespace Steady

variable {r : Reader} {c tail arguments : List Sign}

theorem map_ground (hc : Steady r c) (values : Bindings) : c.map (Sign.ground values) = c :=
  map_ground_of_fixed hc.fixed values

theorem append {c' : List Sign} (hc : Steady r c) (hc' : Steady r c') : Steady r (c ++ c') where
  fixed s hs := (List.mem_append.1 hs).elim (hc.fixed s) (hc'.fixed s)
  flat s hs := (List.mem_append.1 hs).elim (hc.flat s) (hc'.flat s)
  positive := by rw [affirms_append, hc.positive, hc'.positive, Bool.and_true]

theorem quoted (text : String) : Steady r [.quoted text] where
  fixed s hs := by rw [List.mem_singleton.1 hs]; rfl
  flat s hs := by rw [List.mem_singleton.1 hs]; simp [Sign.isFlat]
  positive := by simp [affirms, Sign.positive]

/-- A word that starts like no word with a meaning of its own. -/
theorem word {w : String} {first : Char} (hfirst : w.toList.head? = some first)
    (hplain : "AON<!a".toList.contains first = false) (hlead : r.leads.contains first = false) :
    Steady r [.word w] := by
  have hne : ∀ {w' : String}, w'.toList.head?.any "AON<!a".toList.contains = true → w ≠ w' := by
    rintro w' hw' rfl
    rw [hfirst, Option.any_some, hplain] at hw'
    cases hw'
  refine ⟨fun s hs => ?_, fun s hs => ?_, ?_⟩
  · rw [List.mem_singleton.1 hs, Sign.isFixed, Reader.isMarker, hfirst, Option.any_some, hlead]
    rfl
  · have hand : w ≠ "AND" := hne (by decide)
    have hor : w ≠ "OR" := hne (by decide)
    rw [List.mem_singleton.1 hs]
    simp [Sign.isFlat, hand, hor]
  · have hnot : w ≠ "NOT" := hne (by decide)
    have hunequal : w ≠ "<>" := hne (by decide)
    have hother : w ≠ "!=" := hne (by decide)
    have hexists : w ≠ "attribute_not_exists" := hne (by decide)
    simp [affirms, Sign.positive, hnot, hunequal, hother, hexists]

theorem exists_cons (hc : Steady r c) (hne : c ≠ []) :
    ∃ s ss, c = s :: ss ∧ s ≠ .word "NOT" ∧ s.isFlat = true ∧ ∀ x ∈ ss, x.isFlat = true := by
  cases c with
  | nil => exact absurd rfl hne
  | cons s ss =>
    refine ⟨s, ss, rfl, ?_, hc.flat s List.mem_cons_self,
      fun x hx => hc.flat x (List.mem_cons_of_mem s hx)⟩
    rintro rfl
    have haffirms := hc.positive
    rw [affirms, List.all_cons, Bool.and_eq_true] at haffirms
    exact absurd haffirms.1 (by decide)

/-- A function of flat arguments in positive form, by a word that stands in an atom as it is. -/
theorem means_call {f : String} (hf : Steady r [.word f]) (hflat : ∀ s ∈ arguments, s.isFlat = true)
    (haffirms : ∀ values, affirms (arguments.map (Sign.ground values)) = true) :
    Means .negation (.word f :: enclosed arguments) fun values ρ =>
      ρ (.word f :: enclosed (arguments.map (Sign.ground values))) := by
  obtain ⟨s, ss, hcons, hne, hfirst, _⟩ := hf.exists_cons (List.cons_ne_nil _ _)
  obtain ⟨rfl, rfl⟩ := List.cons.inj hcons
  refine (Means.call hne hfirst hflat haffirms).congr fun values ρ => ?_
  rw [positives_of_affirms hf.positive, hf.positive, beq_true]
  rfl

/-- A function of a column. -/
theorem means_function {f : String} (hf : Steady r [.word f]) (hc : Steady r c) :
    Means .negation (.word f :: enclosed c) fun _ ρ => ρ (.word f :: enclosed c) := by
  refine (hf.means_call hc.flat fun values => ?_).congr fun values ρ => ?_
  · rw [hc.map_ground, hc.positive]
  · rw [hc.map_ground]

/-- A function of a column and a value. -/
theorem means_argument {f : String} (hf : Steady r [.word f]) (hc : Steady r c) (k : Nat) :
    Means .negation (.word f :: enclosed (c ++ [.mark ',', .marker k])) fun values ρ =>
      ρ (.word f :: enclosed (c ++ [.mark ',', .value (values.at k)])) := by
  have hground : ∀ values, (c ++ [Sign.mark ',', .marker k]).map (Sign.ground values) =
      c ++ ([.mark ','] ++ [.value (values.at k)]) := by
    intro values
    rw [List.map_append, hc.map_ground]
    rfl
  have hcomma : affirms [.mark ','] = true := by decide
  refine (hf.means_call (fun s hs => ?_) fun values => ?_).congr fun values ρ => ?_
  · have htail : [Sign.mark ',', .marker k].all Sign.isFlat = true := rfl
    exact (List.mem_append.1 hs).elim (hc.flat s) (List.all_eq_true.1 htail s)
  · rw [hground, affirms_append, hc.positive, affirms_append, hcomma, affirms_value]
    rfl
  · rw [hground]
    rfl

/-- What is said of a column by flat signs. -/
theorem means (hc : Steady r c) (hne : c ≠ []) (htail : ∀ s ∈ tail, s.isFlat = true) :
    Means .negation (c ++ tail) fun values ρ =>
      ρ (c ++ positives (tail.map (Sign.ground values))) ==
        affirms (tail.map (Sign.ground values)) := by
  refine (Means.atom fun values => ?_).congr fun values ρ => ?_
  · obtain ⟨s, ss, rfl, hs, hflat, hss⟩ := hc.exists_cons hne
    rw [List.map_append, hc.map_ground]
    refine .plain hs hflat fun x hx => ?_
    rcases List.mem_append.1 hx with hx | hx
    · exact hss x hx
    · exact isFlat_ground htail values x hx
  · rw [List.map_append, hc.map_ground, positives_append, affirms_append,
      positives_of_affirms hc.positive, hc.positive, Bool.true_and]

/-- What is said of a column by flat signs and a list in parentheses. -/
theorem means_list (hc : Steady r c) (hne : c ≠ []) (htail : ∀ s ∈ tail, s.isFlat = true)
    (harguments : ∀ s ∈ arguments, s.isFlat = true)
    (haffirms : ∀ values, affirms (arguments.map (Sign.ground values)) = true) :
    Means .negation (c ++ (tail ++ enclosed arguments)) fun values ρ =>
      ρ (c ++ (positives (tail.map (Sign.ground values)) ++
        enclosed (arguments.map (Sign.ground values)))) ==
          affirms (tail.map (Sign.ground values)) := by
  refine (Means.atom fun values => ?_).congr fun values ρ => ?_
  · obtain ⟨s, ss, rfl, hs, hflat, hss⟩ := hc.exists_cons hne
    rw [List.map_append, hc.map_ground, List.map_append, map_ground_enclosed, List.cons_append,
      ← List.append_assoc]
    refine .call hs hflat (fun x hx => ?_) (isFlat_ground harguments values)
    rcases List.mem_append.1 hx with hx | hx
    · exact hss x hx
    · exact isFlat_ground htail values x hx
  · have hinside := (affirms_enclosed _).trans (haffirms values)
    rw [List.map_append, hc.map_ground, List.map_append, map_ground_enclosed, positives_append,
      affirms_append, positives_of_affirms hc.positive, hc.positive, Bool.true_and, positives_append,
      affirms_append, positives_of_affirms hinside, hinside, Bool.and_true]

end Steady
end ResourceQuery.FilterText

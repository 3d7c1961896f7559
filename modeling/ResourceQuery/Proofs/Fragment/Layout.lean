import ResourceQuery.Proofs.Fragment.Division

set_option autoImplicit false

/-!
# Fragments: how they lie in a query string

One pass over a query string, with the open quote and a pending escape in hand,
finds its separators, the `&` outside quotes and escapes.  The fragments lie in
the string one behind the other, each without blanks at its ends and without a
separator in it, and a separator stands between each two of them; only blanks
and separators are left out.  There is just one way for fragments to lie so.
Hence texts without separators, joined with `&`, are divided where they were
joined.
-/

namespace ResourceQuery.Fragment

/-! ## The pass over the characters -/

/-- What is known after some characters: the quote that is open, and whether the
next character is escaped. -/
structure Scan where
  quote : Option Char
  escaped : Bool
  deriving DecidableEq, Repr

namespace Scan

/-- Outside quotes and escapes, as before the first character. -/
def outside : Scan := ⟨none, false⟩

/-- One character on. -/
def step (s : Scan) (c : Char) : Scan :=
  if s.escaped then ⟨s.quote, false⟩
  else if c = '\\' then ⟨s.quote, true⟩
  else ⟨s.quote.elim (opened c) fun q => if c = q then none else some q, false⟩

/-- Some characters on. -/
def read (s : Scan) (cs : List Char) : Scan := cs.foldl step s

@[simp] theorem read_nil (s : Scan) : s.read [] = s := rfl

@[simp] theorem read_cons (s : Scan) (c : Char) (cs : List Char) :
    s.read (c :: cs) = (s.step c).read cs := rfl

theorem read_append (s : Scan) (a b : List Char) : s.read (a ++ b) = (s.read a).read b :=
  List.foldl_append

theorem step_other {c : Char} (hc : c ≠ '\\') (quote : Option Char) :
    (⟨quote, false⟩ : Scan).step c =
      ⟨quote.elim (opened c) fun q => if c = q then none else some q, false⟩ := by
  rw [step, if_neg Bool.false_ne_true, if_neg hc]

/-- No separator is met. -/
def Seamless : Scan → List Char → Prop
  | _, [] => True
  | s, c :: cs => (c = '&' → s ≠ outside) ∧ (s.step c).Seamless cs

instance decidableSeamless : (s : Scan) → (cs : List Char) → Decidable (s.Seamless cs)
  | _, [] => .isTrue trivial
  | s, c :: cs => @instDecidableAnd _ _ _ (decidableSeamless (s.step c) cs)

theorem Seamless.cons {s : Scan} {c : Char} {cs : List Char} (hc : c = '&' → s ≠ outside)
    (h : (s.step c).Seamless cs) : s.Seamless (c :: cs) := ⟨hc, h⟩

/-- Only blanks stand before the next separator, or before the end. -/
def Ends : Scan → List Char → Prop
  | _, [] => True
  | s, c :: cs => c = '&' ∧ s = outside ∨ Text.isBlank c = true ∧ (s.step c).Ends cs

/-- A text in two parts has no separator if neither part has one where it is
scanned. -/
theorem seamless_append {s : Scan} {a b : List Char} :
    s.Seamless (a ++ b) ↔ s.Seamless a ∧ (s.read a).Seamless b := by
  induction a generalizing s with
  | nil => exact (and_iff_right trivial).symm
  | cons c a ih => rw [List.cons_append, Seamless, Seamless, ih, read_cons, and_assoc]

/-- There is no separator but an `&` outside quotes and escapes. -/
theorem not_seamless_amp (cs : List Char) : ¬ outside.Seamless ('&' :: cs) :=
  fun h => h.1 rfl rfl

theorem seamless_of_blank {cs : List Char} (h : ∀ c ∈ cs, Text.isBlank c = true) :
    ∀ s : Scan, s.Seamless cs := by
  induction cs with
  | nil => exact fun _ => trivial
  | cons c cs ih =>
    intro s
    refine ⟨fun hamp => absurd hamp ?_, ih (fun d hd => h d (List.mem_cons_of_mem c hd)) _⟩
    exact (opened_of_isBlank (h c List.mem_cons_self)).2.1

theorem ends_append {cs rest : List Char} (h : ∀ c ∈ cs, Text.isBlank c = true) :
    ∀ {s : Scan}, (s.read cs).Ends rest → s.Ends (cs ++ rest) := by
  induction cs with
  | nil => exact fun hrest => hrest
  | cons c cs ih =>
    intro s hrest
    exact .inr ⟨h c List.mem_cons_self, ih (fun d hd => h d (List.mem_cons_of_mem c hd)) hrest⟩

/-- What stands before the next separator is blank where only blanks do. -/
theorem Ends.blank {cs rest : List Char} : ∀ {s : Scan}, s.Seamless cs → s.Ends (cs ++ rest) →
    ∀ c ∈ cs, Text.isBlank c = true := by
  induction cs with
  | nil => exact fun _ _ c hc => absurd hc List.not_mem_nil
  | cons c cs ih =>
    intro s hseamless hends d hd
    rcases hends with ⟨hamp, houtside⟩ | ⟨hblank, hends⟩
    · exact absurd houtside (hseamless.1 hamp)
    · rcases List.mem_cons.1 hd with rfl | hd
      · exact hblank
      · exact ih hseamless.2 hends d hd

end Scan

/-- The scan of what is read without a division meets no separator. -/
theorem Crosses.scan {quote after : Option Char} {cs : List Char} (h : Crosses quote cs after) :
    (⟨quote, false⟩ : Scan).Seamless cs ∧ (⟨quote, false⟩ : Scan).read cs = ⟨after, false⟩ := by
  induction h with
  | nil quote => exact ⟨trivial, rfl⟩
  | @escape quote after c cs _ ih =>
    have hescaped : (⟨quote, true⟩ : Scan).Seamless (c :: cs) :=
      .cons (fun _ hout => by cases hout) ih.1
    exact ⟨.cons (fun hamp => absurd hamp (by decide)) hescaped, ih.2⟩
  | @inside q c after cs hc _ ih =>
    have hstep := Scan.step_other hc (some q)
    refine ⟨.cons (fun _ hout => by cases hout) ?_, ?_⟩
    · rw [hstep]
      exact ih.1
    · rw [Scan.read_cons, hstep]
      exact ih.2
  | @outside c after cs hc hamp _ ih =>
    have hstep := Scan.step_other hc none
    refine ⟨.cons (fun heq => absurd heq hamp) ?_, ?_⟩
    · rw [hstep]
      exact ih.1
    · rw [Scan.read_cons, hstep]
      exact ih.2

/-! ## Blanks at the ends -/

/-- There are characters, and no blank stands at either end. -/
structure Trimmed (cs : List Char) : Prop where
  nonempty : cs ≠ []
  head : ∀ c ∈ cs.head?, Text.isBlank c = false
  last : ∀ c ∈ cs.getLast?, Text.isBlank c = false

theorem trimmed_iff {cs : List Char} : Trimmed cs ↔
    cs.head?.any (fun c => !Text.isBlank c) = true ∧
      cs.getLast?.any (fun c => !Text.isBlank c) = true := by
  have hany : ∀ edge? : Option Char, edge?.any (fun c => !Text.isBlank c) = true ↔
      edge? ≠ none ∧ ∀ c ∈ edge?, Text.isBlank c = false := by
    intro edge?
    cases edge? with
    | none => simp
    | some c => simp
  rw [hany, hany, ne_eq, ne_eq, List.head?_eq_none_iff, List.getLast?_eq_none_iff]
  constructor
  · intro h
    exact ⟨⟨h.nonempty, h.head⟩, h.nonempty, h.last⟩
  · rintro ⟨⟨hnonempty, hhead⟩, _, hlast⟩
    exact ⟨hnonempty, hhead, hlast⟩

instance decidableTrimmed (cs : List Char) : Decidable (Trimmed cs) :=
  decidable_of_iff _ trimmed_iff.symm

theorem exists_trimChars (cs : List Char) : ∃ a b, cs = a ++ Text.trimChars cs ++ b ∧
    (∀ c ∈ a, Text.isBlank c = true) ∧ ∀ c ∈ b, Text.isBlank c = true := by
  have hback := List.takeWhile_append_dropWhile (p := Text.isBlank)
    (l := (cs.dropWhile Text.isBlank).reverse)
  have hinner : cs.dropWhile Text.isBlank = Text.trimChars cs ++
      ((cs.dropWhile Text.isBlank).reverse.takeWhile Text.isBlank).reverse := by
    rw [Text.trimChars, ← List.reverse_append, hback, List.reverse_reverse]
  refine ⟨cs.takeWhile Text.isBlank,
    ((cs.dropWhile Text.isBlank).reverse.takeWhile Text.isBlank).reverse, ?_, ?_, ?_⟩
  · rw [List.append_assoc, ← hinner, List.takeWhile_append_dropWhile]
  · exact List.all_eq_true.1 List.all_takeWhile
  · intro c hc
    exact List.all_eq_true.1 List.all_takeWhile c (List.mem_reverse.1 hc)

theorem trimmed_trimChars {cs : List Char} (h : Text.trimChars cs ≠ []) :
    Trimmed (Text.trimChars cs) := by
  have hfirst : ∀ ds : List Char, ∀ c ∈ (ds.dropWhile Text.isBlank).head?,
      Text.isBlank c = false := by
    intro ds c hc
    have hnot := List.head?_dropWhile_not Text.isBlank ds
    rw [Option.mem_def.1 hc] at hnot
    simpa using hnot
  refine ⟨h, fun c hc => ?_, fun c hc => ?_⟩
  · -- the first character is that of the list before the blanks at the end go
    refine hfirst cs c ?_
    rw [Text.trimChars, List.head?_reverse] at hc
    obtain ⟨dropped, hdropped⟩ :=
      List.dropWhile_suffix Text.isBlank (l := (cs.dropWhile Text.isBlank).reverse)
    rw [← List.reverse_reverse (cs.dropWhile Text.isBlank), List.head?_reverse, ← hdropped,
      List.getLast?_append, Option.mem_def.1 hc]
    rfl
  · rw [Text.trimChars, List.getLast?_reverse] at hc
    exact hfirst _ c hc

/-- Blanks in front are trimmed. -/
theorem trimChars_blank_append {a : List Char} (ha : ∀ c ∈ a, Text.isBlank c = true)
    (cs : List Char) : Text.trimChars (a ++ cs) = Text.trimChars cs := by
  rw [Text.trimChars, List.dropWhile_append_of_pos ha]
  rfl

/-- Blanks behind are trimmed. -/
theorem Trimmed.trimChars_append {cs b : List Char} (h : Trimmed cs)
    (hb : ∀ c ∈ b, Text.isBlank c = true) : Text.trimChars (cs ++ b) = cs := by
  have hkeep : ∀ {ds : List Char}, (∀ c ∈ ds.head?, Text.isBlank c = false) →
      ds.dropWhile Text.isBlank = ds := by
    intro ds hds
    cases ds with
    | nil => rfl
    | cons d ds => rw [List.dropWhile_cons, if_neg (by simp [hds d rfl])]
  have hhead : ∀ c ∈ (cs ++ b).head?, Text.isBlank c = false := by
    cases cs with
    | nil => exact absurd rfl h.nonempty
    | cons c cs => exact h.head
  have hlast : ∀ c ∈ cs.reverse.head?, Text.isBlank c = false := by
    rw [List.head?_reverse]
    exact h.last
  rw [Text.trimChars, hkeep hhead, List.reverse_append,
    List.dropWhile_append_of_pos fun c hc => hb c (List.mem_reverse.1 hc), hkeep hlast,
    List.reverse_reverse]

/-! ## Pieces between separators -/

/-- The characters are divided into the pieces by the separators in them. -/
inductive Divided : Scan → List Char → List (List Char) → Prop where
  | last {s : Scan} {piece : List Char} (h : s.Seamless piece) : Divided s piece [piece]
  | more {s : Scan} {piece cs : List Char} {pieces : List (List Char)} (h : s.Seamless piece)
      (hs : s.read piece = .outside) (hrest : Divided .outside cs pieces) :
      Divided s (piece ++ '&' :: cs) (piece :: pieces)

/-- The divider divides at separators. -/
theorem divided_divideChars (quote : Option Char) (piece cs : List Char) :
    Crosses none piece.reverse quote →
      Divided .outside (piece.reverse ++ cs) (divideChars quote piece cs) := by
  fun_induction divideChars quote piece cs with
  | case1 quote piece =>
    intro h
    rw [List.append_nil]
    exact .last h.scan.1
  | case2 quote piece =>
    intro h
    rw [List.reverse_cons]
    refine .last (Scan.seamless_append.2 ⟨h.scan.1, .cons (fun hamp => ?_) trivial⟩)
    exact absurd hamp (by decide)
  | case3 quote piece c rest ih =>
    intro h
    have hdivided := ih (h.append_reverse [c, '\\'] (.escape (.nil _)))
    simpa using hdivided
  | case4 q piece c cs hc ih =>
    intro h
    have hdivided := ih (h.append_reverse [c] (.inside hc (.nil _)))
    simpa using hdivided
  | case5 piece cs hc ih =>
    intro h
    exact .more h.scan.1 h.scan.2 (ih (.nil none))
  | case6 piece c cs hc hamp ih =>
    intro h
    have hdivided := ih (h.append_reverse [c] (.outside hc hamp (.nil _)))
    simpa using hdivided

/-- The first separator is at one place. -/
theorem eq_of_separators {p p' cs cs' : List Char} : ∀ {s : Scan},
    s.Seamless p → s.read p = .outside → s.Seamless p' → s.read p' = .outside →
      p ++ '&' :: cs = p' ++ '&' :: cs' → p = p' ∧ cs = cs' := by
  induction p generalizing p' with
  | nil =>
    intro s _ hread hseamless' _ heq
    cases p' with
    | nil => exact ⟨rfl, (List.cons.inj heq).2⟩
    | cons c p' => exact absurd hread (hseamless'.1 (List.cons.inj heq).1.symm)
  | cons c p ih =>
    intro s hseamless hread hseamless' hread' heq
    cases p' with
    | nil => exact absurd hread' (hseamless.1 (List.cons.inj heq).1)
    | cons c' p' =>
      obtain ⟨rfl, hrest⟩ := List.cons.inj heq
      obtain ⟨rfl, rfl⟩ := ih hseamless.2 hread hseamless'.2 hread' hrest
      exact ⟨rfl, rfl⟩

/-- A text with a separator in it is no last piece. -/
theorem not_seamless_more {s : Scan} {p cs : List Char} (hs : s.read p = .outside) :
    ¬ s.Seamless (p ++ '&' :: cs) := by
  intro h
  have hbehind := (Scan.seamless_append.1 h).2
  rw [hs] at hbehind
  exact Scan.not_seamless_amp cs hbehind

/-- There is one division. -/
theorem Divided.unique {s : Scan} {cs : List Char} {pieces pieces' : List (List Char)}
    (h : Divided s cs pieces) (h' : Divided s cs pieces') : pieces = pieces' := by
  induction h generalizing pieces' with
  | last hseamless =>
    cases h' with
    | last _ => rfl
    | more _ hs _ => exact absurd hseamless (not_seamless_more hs)
  | @more s p cs pieces hseamless hs _ ih =>
    generalize htext : p ++ '&' :: cs = text at h'
    cases h' with
    | last hseamless' => exact absurd (htext ▸ hseamless') (not_seamless_more hs)
    | more hseamless' hs' hrest' =>
      obtain ⟨rfl, rfl⟩ := eq_of_separators hseamless hs hseamless' hs' htext
      rw [ih hrest']

/-- What comes before the first separator belongs to the first piece. -/
theorem Divided.prepend {s : Scan} {a cs piece : List Char} {pieces : List (List Char)}
    (ha : s.Seamless a) (h : Divided (s.read a) cs (piece :: pieces)) :
    Divided s (a ++ cs) ((a ++ piece) :: pieces) := by
  cases h with
  | last hseamless => exact .last (Scan.seamless_append.2 ⟨ha, hseamless⟩)
  | more hseamless hs hrest =>
    rw [← List.append_assoc]
    refine .more (Scan.seamless_append.2 ⟨ha, hseamless⟩) ?_ hrest
    rw [Scan.read_append, hs]

theorem Divided.exists_cons {s : Scan} {cs : List Char} {pieces : List (List Char)}
    (h : Divided s cs pieces) : ∃ first rest, pieces = first :: rest := by
  cases h with
  | last _ => exact ⟨_, _, rfl⟩
  | more _ _ _ => exact ⟨_, _, rfl⟩

/-- The first piece is blank where only blanks stand before the next separator. -/
theorem Divided.first_blank {s : Scan} {cs piece : List Char} {pieces : List (List Char)}
    (h : Divided s cs (piece :: pieces)) (hends : s.Ends cs) :
    ∀ c ∈ piece, Text.isBlank c = true := by
  cases h with
  | last hseamless => exact Scan.Ends.blank hseamless (by rwa [List.append_nil])
  | more hseamless _ _ => exact Scan.Ends.blank hseamless hends

/-! ## Fragments in their places -/

/-- The fragments that pieces leave. -/
def fragments (pieces : List (List Char)) : List String :=
  (pieces.map Text.trimChars).filterMap fun cs =>
    if cs = [] then none else some (String.ofList cs)

theorem split_eq (text : String) : split text = fragments (divideChars none [] text.toList) := rfl

theorem fragments_cons_blank {piece : List Char} (h : Text.trimChars piece = [])
    (pieces : List (List Char)) : fragments (piece :: pieces) = fragments pieces := by
  rw [fragments, List.map_cons, List.filterMap_cons_none (by rw [h, if_pos rfl])]
  rfl

theorem fragments_cons {piece : List Char} (h : Text.trimChars piece ≠ [])
    (pieces : List (List Char)) :
    fragments (piece :: pieces) = String.ofList (Text.trimChars piece) :: fragments pieces := by
  rw [fragments, List.map_cons, List.filterMap_cons_some (by rw [if_neg h])]
  rfl

/-- The fragments lie in the characters, which are scanned on from the given
state, one behind the other.  Each is trimmed and has no separator in it, and
behind it come blanks and then a separator or the end.  What is left out are
blanks and separators. -/
inductive Laid : Scan → List Char → List String → Prop where
  | nil (s : Scan) : Laid s [] []
  | dropped {s : Scan} {c : Char} {cs : List Char} {fragments : List String}
      (hc : Text.isBlank c = true ∨ c = '&' ∧ s = .outside)
      (h : Laid (s.step c) cs fragments) : Laid s (c :: cs) fragments
  | fragment {s : Scan} {body cs : List Char} {fragments : List String}
      (htrimmed : Trimmed body) (hseamless : s.Seamless body) (hends : (s.read body).Ends cs)
      (h : Laid (s.read body) cs fragments) : Laid s (body ++ cs) (String.ofList body :: fragments)

theorem Laid.gap {gap : List Char} (hgap : ∀ c ∈ gap, Text.isBlank c = true) :
    ∀ {s : Scan} {cs : List Char} {fragments : List String},
      Laid (s.read gap) cs fragments → Laid s (gap ++ cs) fragments := by
  induction gap with
  | nil => exact fun h => h
  | cons c gap ih =>
    intro s cs fragments h
    exact .dropped (.inl (hgap c List.mem_cons_self))
      (ih (fun d hd => hgap d (List.mem_cons_of_mem c hd)) h)

/-- A piece leaves its fragment, or none if it is blank. -/
theorem Laid.piece {s : Scan} {piece cs : List Char} {pieces : List (List Char)}
    (hpiece : s.Seamless piece) (hends : (s.read piece).Ends cs)
    (h : Laid (s.read piece) cs (fragments pieces)) :
    Laid s (piece ++ cs) (fragments (piece :: pieces)) := by
  obtain ⟨a, b, hchars, ha, hb⟩ := exists_trimChars piece
  by_cases hnil : Text.trimChars piece = []
  · rw [fragments_cons_blank hnil]
    refine .gap (fun c hc => ?_) h
    rw [hchars, hnil, List.append_nil] at hc
    exact (List.mem_append.1 hc).elim (ha c) (hb c)
  · rw [fragments_cons hnil]
    have htrimmed := trimmed_trimChars hnil
    generalize Text.trimChars piece = body at hchars htrimmed
    subst hchars
    rw [Scan.seamless_append, Scan.seamless_append] at hpiece
    rw [Scan.read_append, Scan.read_append] at hends h
    rw [List.append_assoc, List.append_assoc]
    exact .gap ha (.fragment htrimmed hpiece.1.2 (Scan.ends_append hb hends) (.gap hb h))

/-- What pieces leave lies where they were. -/
theorem Divided.laid {s : Scan} {cs : List Char} {pieces : List (List Char)}
    (h : Divided s cs pieces) : Laid s cs (fragments pieces) := by
  induction h with
  | @last s piece hseamless =>
    have hlaid : Laid s (piece ++ []) (fragments [piece]) := .piece hseamless trivial (.nil _)
    rwa [List.append_nil] at hlaid
  | more hseamless hs _ ih =>
    refine .piece hseamless (.inl ⟨rfl, hs⟩) (.dropped (.inr ⟨rfl, hs⟩) ?_)
    rw [hs]
    exact ih

/-- Fragments that lie in the characters are left by a division of these. -/
theorem Laid.exists_divided {s : Scan} {cs : List Char} {found : List String}
    (h : Laid s cs found) : ∃ pieces, Divided s cs pieces ∧ fragments pieces = found := by
  induction h with
  | nil s => exact ⟨[[]], .last trivial, rfl⟩
  | @dropped s c cs found hc _ ih =>
    obtain ⟨pieces, hdivided, rfl⟩ := ih
    rcases hc with hblank | ⟨rfl, rfl⟩
    · obtain ⟨first, rest, rfl⟩ := hdivided.exists_cons
      have hgap : ∀ d ∈ [c], Text.isBlank d = true := fun d hd => List.mem_singleton.1 hd ▸ hblank
      refine ⟨([c] ++ first) :: rest, .prepend (Scan.seamless_of_blank hgap s) hdivided, ?_⟩
      rw [fragments, List.map_cons, trimChars_blank_append hgap]
      rfl
    · have hempty : Scan.outside.Seamless [] := trivial
      exact ⟨[] :: pieces, .more hempty rfl hdivided, fragments_cons_blank rfl _⟩
  | @fragment s body cs found htrimmed hseamless hends _ ih =>
    obtain ⟨pieces, hdivided, rfl⟩ := ih
    obtain ⟨first, rest, rfl⟩ := hdivided.exists_cons
    have hblank := hdivided.first_blank hends
    have hbody := htrimmed.trimChars_append hblank
    have hfirst : Text.trimChars first = [] := by
      have htrim := trimChars_blank_append hblank []
      rwa [List.append_nil] at htrim
    refine ⟨(body ++ first) :: rest, hdivided.prepend hseamless, ?_⟩
    rw [fragments_cons (by rw [hbody]; exact htrimmed.nonempty), hbody, fragments_cons_blank hfirst]

theorem laid_split (text : String) : Laid .outside text.toList (split text) :=
  (divided_divideChars none [] text.toList (.nil none)).laid

/-- Fragments that lie in a query string are those it is split into. -/
theorem Laid.eq_split {text : String} {found : List String}
    (h : Laid .outside text.toList found) : found = split text := by
  obtain ⟨pieces, hdivided, rfl⟩ := h.exists_divided
  rw [split_eq, hdivided.unique (divided_divideChars none [] text.toList (.nil none))]

/-! ## Joining -/

/-- A text that has no separator in it, is trimmed, and ends outside quotes and escapes. -/
structure Joinable (text : String) : Prop where
  trimmed : Trimmed text.toList
  seamless : Scan.outside.Seamless text.toList
  closed : Scan.outside.read text.toList = .outside

/-- Texts lie where they were joined. -/
theorem laid_intercalate {texts : List String} (h : ∀ text ∈ texts, Joinable text) :
    Laid .outside (['&'].intercalate (texts.map String.toList)) texts := by
  induction texts with
  | nil => exact .nil _
  | cons text texts ih =>
    obtain ⟨htrimmed, hseamless, hclosed⟩ := h text List.mem_cons_self
    have hrest := ih fun t ht => h t (List.mem_cons_of_mem text ht)
    have hlaid : ∀ {cs : List Char}, Scan.outside.Ends cs → Laid .outside cs texts →
        Laid .outside (text.toList ++ cs) (text :: texts) := by
      intro cs hends hcs
      have hfragment := Laid.fragment htrimmed hseamless (hclosed.symm ▸ hends) (hclosed.symm ▸ hcs)
      rwa [String.ofList_toList] at hfragment
    cases texts with
    | nil =>
      have hone : Laid .outside (text.toList ++ []) [text] := hlaid trivial (.nil _)
      rw [List.append_nil] at hone
      rwa [List.map_singleton, List.intercalate_singleton]
    | cons next texts =>
      rw [List.map_cons, List.map_cons, List.intercalate_cons_cons, List.append_assoc]
      exact hlaid (.inl ⟨rfl, rfl⟩) (.dropped (.inr ⟨rfl, rfl⟩) hrest)

/-- Texts that may be joined are the fragments of what they are joined to. -/
theorem split_intercalate {texts : List String} (h : ∀ text ∈ texts, Joinable text) :
    split ("&".intercalate texts) = texts := by
  have hlaid := laid_intercalate h
  have hchars : ("&".intercalate texts).toList = ['&'].intercalate (texts.map String.toList) :=
    String.toList_intercalate
  rw [← hchars] at hlaid
  exact hlaid.eq_split.symm

/-- Splitting undoes joining.  And a query string is split into the fragments
that lie in it with nothing but blanks and separators around them, and there are
no others. -/
theorem split_undoes_join_and_drops_separators :
    (∀ texts : List String, (∀ text ∈ texts, Joinable text) →
      split ("&".intercalate texts) = texts) ∧
    ∀ text : String, Laid .outside text.toList (split text) ∧
      ∀ found, Laid .outside text.toList found → found = split text :=
  ⟨fun _ h => split_intercalate h, fun text => ⟨laid_split text, fun _ h => h.eq_split⟩⟩

/-- Texts with `&` in quotes and behind a backslash, and with a quote inside the other quotes. -/
def shieldedTexts : List String := ["a='x&y'", "b=\\&", "in(c,\"it's\")"]

/-- Shielded separators do not divide.  An escaped blank is trimmed, and an open
quote shields what follows it to the end. -/
theorem split_undoes_join_of_shielded_texts :
    (∀ text ∈ shieldedTexts, Joinable text) ∧
      split ("&".intercalate shieldedTexts) = shieldedTexts ∧
      Laid .outside " a\\ & &'b& ".toList ["a\\", "'b&"] := by
  have hjoinable : ∀ text ∈ shieldedTexts, Joinable text := by
    intro text htext
    simp only [shieldedTexts, List.mem_cons, List.not_mem_nil, or_false] at htext
    rcases htext with rfl | rfl | rfl
    · exact ⟨by decide, by decide, by decide⟩
    · exact ⟨by decide, by decide, by decide⟩
    · exact ⟨by decide, by decide, by decide⟩
  have hsplit : split " a\\ & &'b& " = ["a\\", "'b&"] := by decide +kernel
  obtain ⟨hjoin, hlaid⟩ := split_undoes_join_and_drops_separators
  refine ⟨hjoinable, hjoin _ hjoinable, ?_⟩
  rw [← hsplit]
  exact (hlaid _).1

end ResourceQuery.Fragment

import ResourceQuery.Sql.Dialect

set_option autoImplicit false

/-!
# SQL: reading quoted names

A reader of names that knows the two quotes of a dialect and nothing else.  It
takes the opening quote, then characters, of which a doubled closing quote
stands for one, and stops at the first closing quote that is not followed by
another.  A text is read so exactly if it is a quoted name and goes on with
anything but a closing quote: no name runs into what follows it, and none is
lost or mistaken for another.
-/

namespace ResourceQuery.Sql

/-! ## The reader -/

/-- The characters up to the first closing quote that is not followed by
another, with one for each doubled closing quote before it; and what is left
behind it. -/
def readToClose (close : Char) : List Char → Option (List Char × List Char)
  | [] => none
  | c :: cs =>
    if c = close then
      match cs with
      | [] => some ([], [])
      | next :: rest =>
        if next = close then (readToClose close rest).map fun read => (close :: read.1, read.2)
        else some ([], next :: rest)
    else (readToClose close cs).map fun read => (c :: read.1, read.2)

/-- The quoted name that a text starts with, and what is left behind it. -/
def Dialect.readName (d : Dialect) (text : String) : Option (String × String) :=
  if text.toList.head? = some d.openQuote then
    (readToClose d.closeQuote text.toList.tail).map fun read =>
      (String.ofList read.1, String.ofList read.2)
  else none

/-! ## Closing quotes -/

/-- The characters with each closing quote doubled. -/
def doubled (close : Char) (cs : List Char) : List Char :=
  cs.flatMap fun c => if c = close then [c, c] else [c]

theorem doubled_close (close : Char) (cs : List Char) :
    doubled close (close :: cs) = close :: close :: doubled close cs := by
  rw [doubled, List.flatMap_cons, if_pos rfl]
  rfl

theorem doubled_other {close c : Char} (hc : c ≠ close) (cs : List Char) :
    doubled close (c :: cs) = c :: doubled close cs := by
  rw [doubled, List.flatMap_cons, if_neg hc]
  rfl

/-- The closing quote closes where no other follows. -/
theorem readToClose_close {close : Char} {rest : List Char} (h : rest.head? ≠ some close) :
    readToClose close (close :: rest) = some ([], rest) := by
  rw [readToClose.eq_def]
  refine (if_pos rfl).trans ?_
  cases rest with
  | nil => rfl
  | cons next rest =>
    have hnext : next ≠ close := fun heq => h (congrArg some heq)
    exact if_neg hnext

theorem readToClose_pair (close : Char) (cs : List Char) :
    readToClose close (close :: close :: cs) =
      (readToClose close cs).map fun read => (close :: read.1, read.2) := by
  rw [readToClose.eq_def]
  exact (if_pos rfl).trans (if_pos rfl)

theorem readToClose_other {close c : Char} (hc : c ≠ close) (cs : List Char) :
    readToClose close (c :: cs) = (readToClose close cs).map fun read => (c :: read.1, read.2) := by
  rw [readToClose.eq_def]
  exact if_neg hc

/-- Doubled closing quotes are read as one each, also where they run up to the one that closes. -/
theorem readToClose_doubled {close : Char} {rest : List Char} (h : rest.head? ≠ some close)
    (name : List Char) :
    readToClose close (doubled close name ++ close :: rest) = some (name, rest) := by
  induction name with
  | nil => exact readToClose_close h
  | cons c name ih =>
    by_cases hc : c = close
    · rw [hc, doubled_close, List.cons_append, List.cons_append, readToClose_pair, ih]
      rfl
    · rw [doubled_other hc, List.cons_append, readToClose_other hc, ih]
      rfl

/-- What is read is written with doubled closing quotes, and the one behind it closes. -/
theorem eq_doubled_of_readToClose (close : Char) (cs : List Char) :
    ∀ {name rest : List Char}, readToClose close cs = some (name, rest) →
      cs = doubled close name ++ close :: rest ∧ rest.head? ≠ some close := by
  fun_induction readToClose close cs with
  | case1 =>
    intro name rest h
    cases h
  | case2 =>
    intro name rest h
    cases h
    exact ⟨rfl, by simp⟩
  | case3 more ih =>
    intro name rest h
    obtain ⟨read, hread, hsome⟩ := Option.map_eq_some_iff.1 h
    cases hsome
    obtain ⟨hmore, hrest⟩ := ih hread
    refine ⟨?_, hrest⟩
    rw [doubled_close, List.cons_append, List.cons_append, ← hmore]
  | case4 next more hnext =>
    intro name rest h
    cases h
    exact ⟨rfl, fun hhead => hnext (Option.some.inj hhead)⟩
  | case5 c cs hc ih =>
    intro name rest h
    obtain ⟨read, hread, hsome⟩ := Option.map_eq_some_iff.1 h
    cases hsome
    obtain ⟨hcs, hrest⟩ := ih hread
    refine ⟨?_, hrest⟩
    rw [doubled_other hc, List.cons_append, ← hcs]

/-! ## Quoted names -/

namespace Dialect

/-- A name is quoted by doubling the closing quotes that it has. -/
theorem toList_quote (d : Dialect) (name : String) :
    (d.quote name).toList = d.openQuote :: (doubled d.closeQuote name.toList ++ [d.closeQuote]) := by
  rw [quote, String.toList_ofList]
  rfl

/-- A text is read as a name and a rest exactly if it is the quoted name with
the rest behind it, and the rest does not start with the closing quote. -/
theorem readName_eq_some_iff (d : Dialect) (text name rest : String) :
    d.readName text = some (name, rest) ↔
      text = d.quote name ++ rest ∧ rest.toList.head? ≠ some d.closeQuote := by
  constructor
  · intro h
    unfold readName at h
    by_cases hopen : text.toList.head? = some d.openQuote
    · rw [if_pos hopen] at h
      obtain ⟨read, hread, hsome⟩ := Option.map_eq_some_iff.1 h
      cases hsome
      obtain ⟨htail, hrest⟩ := eq_doubled_of_readToClose _ _ hread
      obtain ⟨tail, htext⟩ := List.head?_eq_some_iff.1 hopen
      refine ⟨String.toList_inj.1 ?_, by rwa [String.toList_ofList]⟩
      rw [htext, List.tail_cons] at htail
      rw [String.toList_append, toList_quote, String.toList_ofList, String.toList_ofList, htext,
        htail]
      simp
    · rw [if_neg hopen] at h
      cases h
  · rintro ⟨rfl, hrest⟩
    have htext : (d.quote name ++ rest).toList =
        d.openQuote :: (doubled d.closeQuote name.toList ++ d.closeQuote :: rest.toList) := by
      rw [String.toList_append, toList_quote]
      simp
    rw [readName, htext, List.head?_cons, if_pos rfl, List.tail_cons, readToClose_doubled hrest,
      Option.map_some, String.ofList_toList, String.ofList_toList]

/-- Runs of closing quotes at both ends of a name, with more text behind it. -/
example : sqlserver.readName (sqlserver.quote "]]a]" ++ "[, b") = some ("]]a]", "[, b") := by
  decide +kernel

end Dialect
end ResourceQuery.Sql

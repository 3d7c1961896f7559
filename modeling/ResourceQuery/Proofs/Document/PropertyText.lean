import ResourceQuery.Catalog.Sample
import ResourceQuery.Proofs.ColumnPath
import ResourceQuery.Proofs.Document.Filters

set_option autoImplicit false

/-!
# Document queries: the text of a property

A property is written as `c` with its segments behind it, each in brackets and
quotes.  The store reads a quoted string up to the next quote, where a backslash
takes the character behind it as it is.  Only quotes are escaped in a segment,
so the text is read as the segments again exactly if none of them has a
backslash: each backslash of a segment would have to be written as two
characters.

That a text with a backslash is not read back is shown by counting.  A text is
no shorter than the shortest way to write what it is read as (`weights_le`), and
there a backslash takes two characters where only one was written.
-/

namespace ResourceQuery.Document

/-! ## Reading -/

/-- Where the reader of a property is. -/
inductive Spot where
  /-- In front of a bracket, or at the end. -/
  | between
  /-- Behind an opening bracket. -/
  | opened
  /-- In a string, with what was read of it. -/
  | quoted (read : List Char)
  /-- In a string behind a backslash. -/
  | escaped (read : List Char)
  /-- Behind a closing quote. -/
  | closed
  deriving DecidableEq, Repr

/-- The strings in brackets that a text is made of from a spot on. -/
def readSegments : Spot → List Char → Option (List String)
  | .between, [] => some []
  | .between, c :: cs => if c = '[' then readSegments .opened cs else none
  | .opened, c :: cs => if c = '"' then readSegments (.quoted []) cs else none
  | .quoted read, c :: cs =>
    if c = '"' then (readSegments .closed cs).map (String.ofList read :: ·)
    else if c = '\\' then readSegments (.escaped read) cs
    else readSegments (.quoted (read ++ [c])) cs
  | .escaped read, c :: cs => readSegments (.quoted (read ++ [c])) cs
  | .closed, c :: cs => if c = ']' then readSegments .between cs else none
  | _, [] => none

/-- The segments of a property that is written as the text. -/
def readProperty (text : String) : Option (List String) :=
  match text.toList with
  | c :: cs => if c = 'c' then readSegments .between cs else none
  | [] => none

/-! ## Writing -/

/-- The characters of a segment, with the quotes escaped. -/
def escapedChars (cs : List Char) : List Char :=
  cs.flatMap fun c => if c = '"' then ['\\', c] else [c]

/-- A segment as it is written. -/
def bracketed (segment : String) : List Char :=
  '[' :: '"' :: (escapedChars segment.toList ++ ['"', ']'])

/-- A property as it is written. -/
def propertyText (column : Column) : String := Piece.textAll spelling (columnPieces column)

theorem toList_segments (column : Column) :
    (Piece.textAll spelling (column.flatMap fun segment =>
      [.fixed "[", .name segment, .fixed "]"])).toList = column.flatMap bracketed := by
  induction column with
  | nil => rfl
  | cons segment column ih =>
    have hname : (Piece.name segment).text spelling = quoteSegment segment := rfl
    have hopening : (Piece.fixed "[").text spelling = "[" := rfl
    have hclosing : (Piece.fixed "]").text spelling = "]" := rfl
    rw [List.flatMap_cons, List.flatMap_cons, FilterText.textAll_append, String.toList_append, ih,
      FilterText.textAll_cons, FilterText.textAll_cons, FilterText.textAll_singleton, hname,
      hopening, hclosing, String.toList_append, String.toList_append, toList_quoteSegment]
    simp [bracketed, escapedChars]

/-- The characters of a property as it is written. -/
theorem toList_propertyText (column : Column) :
    (propertyText column).toList = 'c' :: column.flatMap bracketed := by
  have hroot : (Piece.fixed "c").text spelling = "c" := rfl
  rw [propertyText, columnPieces, FilterText.textAll_cons, hroot, String.toList_append,
    toList_segments]
  rfl

theorem readProperty_propertyText (column : Column) :
    readProperty (propertyText column) = readSegments .between (column.flatMap bracketed) := by
  rw [readProperty, toList_propertyText]
  exact if_pos rfl

/-! ## Segments without backslashes -/

theorem readSegments_escapedChars {cs : List Char} (h : '\\' ∉ cs) (rest : List Char) :
    ∀ read : List Char, readSegments (.quoted read) (escapedChars cs ++ rest) =
      readSegments (.quoted (read ++ cs)) rest := by
  induction cs with
  | nil =>
    intro read
    rw [List.append_nil]
    rfl
  | cons c cs ih =>
    intro read
    rw [List.mem_cons, not_or] at h
    have hcons : read ++ c :: cs = (read ++ [c]) ++ cs := by simp
    rw [hcons, ← ih h.2, escapedChars, List.flatMap_cons, List.append_assoc]
    by_cases hquote : c = '"'
    · subst hquote
      rfl
    · rw [if_neg hquote, List.singleton_append, readSegments, if_neg hquote,
        if_neg (Ne.symm h.1)]
      rfl

/-- The reader comes out of a bracket with the segment it was written for. -/
theorem readSegments_bracketed {segment : String} (h : '\\' ∉ segment.toList)
    (rest : List Char) : readSegments .between (bracketed segment ++ rest) =
      (readSegments .between rest).map (segment :: ·) := by
  have hopened : readSegments .between (bracketed segment ++ rest) =
      readSegments (.quoted []) (escapedChars segment.toList ++ ('"' :: ']' :: rest)) := by
    rw [bracketed, List.cons_append, List.cons_append, List.append_assoc]
    rfl
  rw [hopened, readSegments_escapedChars h, List.nil_append, readSegments, if_pos rfl,
    String.ofList_toList, readSegments, if_pos rfl]

/-- Segments without backslashes are read as they were. -/
theorem readSegments_of_plain {column : Column} (h : Plain column) :
    readSegments .between (column.flatMap bracketed) = some column := by
  induction column with
  | nil => rfl
  | cons segment column ih =>
    rw [List.flatMap_cons, readSegments_bracketed (h segment List.mem_cons_self),
      ih fun s hs => h s (List.mem_cons_of_mem segment hs)]
    rfl

/-! ## What strings take up -/

/-- The fewest characters that a string with these characters is written with. -/
def weight (cs : List Char) : Nat := cs.length + cs.count '"' + cs.count '\\'

/-- The fewest characters that segments are written with, brackets and quotes included. -/
def weights (segments : List String) : Nat :=
  segments.foldr (fun segment rest => weight segment.toList + 4 + rest) 0

/-- The fewest characters in front of a spot, the `c` included, that no segment
read so far stands for. -/
def Spot.taken : Spot → Nat
  | between => 1
  | opened => 2
  | quoted read => weight read + 3
  | escaped read => weight read + 4
  | closed => 0

theorem weights_cons (segment : String) (segments : List String) :
    weights (segment :: segments) = weight segment.toList + 4 + weights segments := rfl

theorem weight_append (cs ds : List Char) : weight (cs ++ ds) = weight cs + weight ds := by
  simp only [weight, List.length_append, List.count_append]
  omega

theorem weight_of_plain {c : Char} (hquote : c ≠ '"') (hback : c ≠ '\\') : weight [c] = 1 := by
  simp [weight, hquote, hback]

theorem weight_singleton_le (c : Char) : weight [c] ≤ 2 := by
  by_cases hquote : c = '"'
  · subst hquote
    decide
  · by_cases hback : c = '\\'
    · subst hback
      decide
    · rw [weight_of_plain hquote hback]
      decide

/-- A character pays for one of those that are not accounted for behind it. -/
theorem exists_weights_le {spot : Spot} {c : Char} {cs : List Char} {segments : List String}
    (h : readSegments spot (c :: cs) = some segments) :
    ∃ next rest, readSegments next cs = some rest ∧
      weights segments + next.taken ≤ weights rest + spot.taken + 1 := by
  cases spot with
  | between =>
    obtain ⟨-, hrest⟩ := Option.ite_none_right_eq_some.mp h
    exact ⟨.opened, segments, hrest, Nat.le_refl _⟩
  | opened =>
    obtain ⟨-, hrest⟩ := Option.ite_none_right_eq_some.mp h
    exact ⟨.quoted [], segments, hrest, Nat.le_refl _⟩
  | quoted read =>
    rw [readSegments] at h
    by_cases hquote : c = '"'
    · rw [if_pos hquote] at h
      obtain ⟨rest, hrest, rfl⟩ := Option.map_eq_some_iff.mp h
      refine ⟨.closed, rest, hrest, ?_⟩
      rw [weights_cons, String.toList_ofList, Spot.taken, Spot.taken]
      omega
    · rw [if_neg hquote] at h
      by_cases hback : c = '\\'
      · rw [if_pos hback] at h
        exact ⟨.escaped read, segments, h, Nat.le_refl _⟩
      · rw [if_neg hback] at h
        refine ⟨.quoted (read ++ [c]), segments, h, ?_⟩
        rw [Spot.taken, Spot.taken, weight_append, weight_of_plain hquote hback]
        omega
  | escaped read =>
    have htwo := weight_singleton_le c
    refine ⟨.quoted (read ++ [c]), segments, h, ?_⟩
    rw [Spot.taken, Spot.taken, weight_append]
    omega
  | closed =>
    obtain ⟨-, hrest⟩ := Option.ite_none_right_eq_some.mp h
    exact ⟨.between, segments, hrest, Nat.le_refl _⟩

/-- A text is no shorter than what it is read as can be written. -/
theorem weights_le {spot : Spot} {cs : List Char} {segments : List String}
    (h : readSegments spot cs = some segments) :
    weights segments + 1 ≤ cs.length + spot.taken := by
  induction cs generalizing spot segments with
  | nil =>
    cases spot with
    | between =>
      obtain rfl : [] = segments := Option.some.inj h
      decide
    | opened | quoted | escaped | closed => exact absurd h.symm (Option.some_ne_none segments)
  | cons c cs ih =>
    obtain ⟨next, rest, hrest, hstep⟩ := exists_weights_le h
    have hle := ih hrest
    rw [List.length_cons]
    omega

theorem length_escapedChars (cs : List Char) :
    (escapedChars cs).length = cs.length + cs.count '"' := by
  induction cs with
  | nil => rfl
  | cons c cs ih =>
    have hcons : escapedChars (c :: cs) =
        (if c = '"' then ['\\', c] else [c]) ++ escapedChars cs := List.flatMap_cons
    rw [hcons, List.length_append, ih]
    by_cases hquote : c = '"'
    · subst hquote
      rw [if_pos rfl, List.count_cons_self]
      simp only [List.length_cons, List.length_nil]
      omega
    · rw [if_neg hquote, List.count_cons_of_ne hquote]
      simp only [List.length_cons, List.length_nil]
      omega

theorem length_bracketed (segment : String) :
    (bracketed segment).length + segment.toList.count '\\' = weight segment.toList + 4 := by
  simp only [bracketed, List.length_cons, List.length_append, length_escapedChars, List.length_nil,
    weight]
  omega

theorem length_flatMap_le_weights (column : Column) :
    (column.flatMap bracketed).length ≤ weights column := by
  induction column with
  | nil => decide
  | cons segment column ih =>
    have hlength := length_bracketed segment
    rw [List.flatMap_cons, List.length_append, weights_cons]
    omega

/-- Segments that are written with as many characters as they need have no
backslash, as those count twice and are written once. -/
theorem plain_of_weights_le {column : Column}
    (h : weights column ≤ (column.flatMap bracketed).length) : Plain column := by
  induction column with
  | nil => exact List.forall_mem_nil _
  | cons segment column ih =>
    have hlength := length_bracketed segment
    have hrest := length_flatMap_le_weights column
    rw [List.flatMap_cons, List.length_append, weights_cons] at h
    have hnone : segment.toList.count '\\' = 0 := by omega
    exact List.forall_mem_cons.mpr ⟨List.count_eq_zero.mp hnone, ih (by omega)⟩

/-- The text of segments is read as these segments exactly if no one of them has
a backslash. -/
theorem readProperty_propertyText_eq_some_iff (column : Column) :
    readProperty (propertyText column) = some column ↔ Plain column := by
  rw [readProperty_propertyText]
  constructor
  · intro h
    have hle := weights_le h
    simp only [Spot.taken] at hle
    exact plain_of_weights_le (by omega)
  · exact readSegments_of_plain

/-! ## Paths -/

/-- What the text of a path's property is read as.  It is the physical segments,
all of them and with nothing behind them, exactly if there is no backslash in
the column of the first segment and in the names behind it, which are the
caller's. -/
theorem readProperty_of_inside {root : Collection} {path : String} {column : Column}
    {property : Property} (h : ColumnPath.inside backend root path = .ok (column, property)) :
    ∃ first nested found, ColumnPath.segments path = first :: nested ∧
      root.property first = .ok found ∧ column = found.columnName :: nested ∧
      (readProperty (propertyText column) = some column ↔
        '\\' ∉ found.columnName.toList ∧ ∀ name ∈ nested, '\\' ∉ name.toList) := by
  obtain ⟨first, nested, found, hsegments, -, hfound, rfl, -⟩ := ColumnPath.inside_ok h
  refine ⟨first, nested, found, hsegments, hfound, rfl, ?_⟩
  rw [readProperty_propertyText_eq_some_iff, Plain, List.forall_mem_cons]

/-- Quotes of the caller stay in their segment. -/
theorem readProperty_of_inside_quote :
    ColumnPath.inside backend Catalog.Sample.orders "shipCountry.a\"].b" =
        .ok (["ShipCountry", "a\"]", "b"], ⟨"shipCountry.a\"].b", none, .string, true⟩) ∧
      readProperty (propertyText ["ShipCountry", "a\"]", "b"]) =
        some ["ShipCountry", "a\"]", "b"] := by
  have hinside : ColumnPath.inside backend Catalog.Sample.orders "shipCountry.a\"].b" =
      .ok (["ShipCountry", "a\"]", "b"], ⟨"shipCountry.a\"].b", none, .string, true⟩) :=
    eq_ok_of_toOption (by decide +kernel)
  obtain ⟨first, nested, found, -, -, hcolumn, hread⟩ := readProperty_of_inside hinside
  obtain ⟨hname, rfl⟩ := List.cons.inj hcolumn
  refine ⟨hinside, hread.mpr ?_⟩
  rw [← hname]
  decide

/-- A backslash at the end of a name takes the closing quote along, so the name
behind it stands outside of any string, and the text is none of a property. -/
theorem readProperty_of_inside_backslash :
    ColumnPath.inside backend Catalog.Sample.orders "shipCountry.a\\.b" =
        .ok (["ShipCountry", "a\\", "b"], ⟨"shipCountry.a\\.b", none, .string, true⟩) ∧
      propertyText ["ShipCountry", "a\\", "b"] = "c[\"ShipCountry\"][\"a\\\"][\"b\"]" ∧
      readProperty (propertyText ["ShipCountry", "a\\", "b"]) = none :=
  ⟨eq_ok_of_toOption (by decide +kernel), by decide +kernel, by decide +kernel⟩

end ResourceQuery.Document

set_option autoImplicit false

/-!
# Text: dividing at a character

Column paths are divided at their dots.  Nothing is trimmed and nothing is
dropped: two separators side by side have an empty stretch between them, and a
text without separators is one stretch.
-/

namespace ResourceQuery.Text

/-- The stretches between the occurrences of `sep`; always at least one. -/
def divideChars (sep : Char) : List Char → List (List Char)
  | [] => [[]]
  | c :: cs =>
    if c = sep then [] :: divideChars sep cs
    else match divideChars sep cs with
      | [] => [[c]]
      | piece :: pieces => (c :: piece) :: pieces

/-- The stretches of a text between the occurrences of `sep`. -/
def divide (sep : Char) (s : String) : List String :=
  (divideChars sep s.toList).map String.ofList

theorem divideChars_ne_nil (sep : Char) (cs : List Char) : divideChars sep cs ≠ [] := by
  cases cs with
  | nil => simp [divideChars]
  | cons c cs =>
    rw [divideChars]
    split
    · simp
    · split <;> simp

end ResourceQuery.Text

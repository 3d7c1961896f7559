set_option autoImplicit false

/-!
# Text: words compared without regard to ASCII case

Operator words, clause words and catalog names are compared by their ASCII
lower-case form.  Letters outside ASCII are never folded.
-/

namespace ResourceQuery.Text

/-- The ASCII lower-case form of a text. -/
def lower (s : String) : String := String.ofList (s.toList.map Char.toLower)

/-- The two texts differ at most in the case of ASCII letters. -/
def sameWord (a b : String) : Bool := lower a == lower b

theorem sameWord_iff (a b : String) : sameWord a b = true ↔ lower a = lower b := by
  simp [sameWord]

@[simp] theorem sameWord_refl (a : String) : sameWord a a = true := by
  simp [sameWord]

end ResourceQuery.Text

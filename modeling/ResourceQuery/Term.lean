import ResourceQuery.Text.Ascii
import ResourceQuery.Token

set_option autoImplicit false

/-!
# Terms

A term is a word with arguments: `eq(name,Bob)`, `and(gt(age,18),n(deleted))`. A
term without arguments is a leaf, a column name or a literal; a leaf remembers
the quotes it was written in.
-/

namespace ResourceQuery

/-- A word, the quotes around it, and its arguments. -/
inductive Term where
  | node (token : String) (quote : Option Quote) (children : List Term)
  deriving Repr, Inhabited

namespace Term

/-- The word of a term. -/
def token : Term → String
  | node t _ _ => t

/-- The quotes around the word. -/
def quote : Term → Option Quote
  | node _ q _ => q

/-- The arguments. -/
def children : Term → List Term
  | node _ _ cs => cs

@[simp] theorem token_node (t : String) (q : Option Quote) (cs : List Term) :
    (node t q cs).token = t := rfl
@[simp] theorem quote_node (t : String) (q : Option Quote) (cs : List Term) :
    (node t q cs).quote = q := rfl
@[simp] theorem children_node (t : String) (q : Option Quote) (cs : List Term) :
    (node t q cs).children = cs := rfl

/-- A term without arguments. -/
def leaf (token : String) (quote : Option Quote) : Term := node token quote []

/-- A leaf without quotes. -/
def word (token : String) : Term := leaf token none

/-- An unquoted word with arguments. -/
def call (token : String) (children : List Term) : Term := node token none children

/-- The term has no arguments. -/
def isLeaf (t : Term) : Bool := t.children.isEmpty

/-- The word was written in quotes. -/
def isQuoted (t : Term) : Bool := t.quote.isSome

/-- A leaf written without quotes. -/
def isWord (t : Term) : Bool := t.isLeaf && !t.isQuoted

/-- The word is `word`, without regard to case; a quoted word is no word. -/
def hasToken (t : Term) (word : String) : Bool := !t.isQuoted && Text.sameWord t.token word

/-- The unquoted literal `null`. -/
def isNull (t : Term) : Bool := t.isLeaf && t.hasToken "null"

/-- An unquoted literal with a `*` in it. -/
def isPattern (t : Term) : Bool := t.isWord && t.token.toList.contains '*'

mutual

/-- The number of words in a term. -/
def count : Term → Nat
  | node _ _ cs => countAll cs + 1

/-- The number of words in the terms. -/
def countAll : List Term → Nat
  | [] => 0
  | t :: ts => count t + countAll ts

end

mutual

/-- Equality of terms: same words, same quotes, same arguments. -/
def same : Term → Term → Bool
  | node t q cs, node t' q' cs' => t == t' && q == q' && sameAll cs cs'

/-- Equality of lists of terms. -/
def sameAll : List Term → List Term → Bool
  | [], [] => true
  | t :: ts, u :: us => same t u && sameAll ts us
  | _, _ => false

end

mutual

theorem same_iff : ∀ t u : Term, same t u = true ↔ t = u
  | node t q cs, node t' q' cs' => by
    simp only [same, Bool.and_eq_true, beq_iff_eq, sameAll_iff cs cs', node.injEq, and_assoc]

theorem sameAll_iff : ∀ ts us : List Term, sameAll ts us = true ↔ ts = us
  | [], [] => by simp [sameAll]
  | [], _ :: _ => by simp [sameAll]
  | _ :: _, [] => by simp [sameAll]
  | t :: ts, u :: us => by
    simp only [sameAll, Bool.and_eq_true, same_iff t u, sameAll_iff ts us, List.cons.injEq]

end

instance : DecidableEq Term := fun t u => decidable_of_iff _ (same_iff t u)

end Term
end ResourceQuery

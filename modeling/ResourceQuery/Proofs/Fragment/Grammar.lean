import ResourceQuery.Fragment

set_option autoImplicit false

/-!
# Fragments: the grammar

The grammar of fragments over tokens, given by its derivation trees:

    Term     ::= Text | BareText '(' ')' | BareText '(' Term (',' Term)* ')'
    Fragment ::= Term | Text '=' Term* | Text '=' BareText '=' Term*

A derivation has the tokens that it derives and the term that it builds.  The
two are kept apart, because `gt()` and `gt` build the same term, and a key is
put into the one and compared with the other.
-/

namespace ResourceQuery.Fragment

/-- The derivation of a term. -/
inductive Derivation where
  | text (text : String) (quote : Option Quote)
  | call (name : String) (args : List Derivation)
  deriving Repr, Inhabited

namespace Derivation

mutual

/-- The tokens that are derived. -/
def tokens : Derivation → List Token.Kind
  | text t q => [.text t q]
  | call name args => .text name none :: .opening :: (argTokens args ++ [.closing])

/-- The tokens of the arguments of a call, divided by commas. -/
def argTokens : List Derivation → List Token.Kind
  | [] => []
  | [d] => tokens d
  | d :: ds => tokens d ++ .comma :: argTokens ds

end

mutual

/-- The term that is built. -/
def term : Derivation → Term
  | text t q => .leaf t q
  | call name args => .call name (terms args)

/-- The terms that are built. -/
def terms : List Derivation → List Term
  | [] => []
  | d :: ds => term d :: terms ds

end

/-- The term is written with parentheses. -/
def isCall : Derivation → Bool
  | text _ _ => false
  | call _ _ => true

/-- What is derived, as a piece of a fragment. -/
def piece (d : Derivation) : Piece Term := ⟨d.term, d.isCall⟩

/-- The tokens of terms that stand side by side. -/
def rowTokens (ds : List Derivation) : List Token.Kind := ds.flatMap tokens

/-- The tokens of rows of terms, divided by `=`. -/
def rowsTokens : List (List Derivation) → List Token.Kind
  | [] => []
  | [row] => rowTokens row
  | row :: rows => rowTokens row ++ .equals :: rowsTokens rows

/-- The terms after an `=`; none stands for the empty text. -/
def values : List Derivation → List Term
  | [] => [.leaf "" (some .double)]
  | ds => ds.map term

@[simp] theorem tokens_text (t : String) (q : Option Quote) :
    (text t q).tokens = [.text t q] := by rw [tokens]

theorem tokens_call (name : String) (args : List Derivation) :
    (call name args).tokens =
      .text name none :: .opening :: (argTokens args ++ [.closing]) := by rw [tokens]

@[simp] theorem argTokens_nil : argTokens [] = [] := by rw [argTokens]

@[simp] theorem argTokens_singleton (d : Derivation) : argTokens [d] = d.tokens := by
  rw [argTokens]

theorem argTokens_cons_cons (d e : Derivation) (ds : List Derivation) :
    argTokens (d :: e :: ds) = d.tokens ++ .comma :: argTokens (e :: ds) := by
  rw [argTokens]
  simp

@[simp] theorem term_text (t : String) (q : Option Quote) : (text t q).term = .leaf t q := by
  rw [term]

theorem terms_eq_map (ds : List Derivation) : terms ds = ds.map term := by
  induction ds with
  | nil => rw [terms, List.map_nil]
  | cons d ds ih => rw [terms, ih, List.map_cons]

@[simp] theorem term_call (name : String) (args : List Derivation) :
    (call name args).term = .call name (args.map term) := by
  rw [term, terms_eq_map]

/-- The tokens of a derivation start with a text. -/
theorem tokens_eq_text_cons (d : Derivation) :
    ∃ text quote tail, d.tokens = .text text quote :: tail := by
  cases d with
  | text t q => exact ⟨t, q, [], tokens_text t q⟩
  | call name args => exact ⟨name, none, _, tokens_call name args⟩

@[simp] theorem rowTokens_nil : rowTokens [] = [] := rfl

@[simp] theorem rowTokens_cons (d : Derivation) (ds : List Derivation) :
    rowTokens (d :: ds) = d.tokens ++ rowTokens ds := rfl

theorem rowsTokens_cons_cons (row next : List Derivation) (rows : List (List Derivation)) :
    rowsTokens (row :: next :: rows) = rowTokens row ++ .equals :: rowsTokens (next :: rows) := rfl

/-- Arguments seen from the last one: each other has a comma after it. -/
theorem argTokens_concat (ds : List Derivation) (last : Derivation) :
    argTokens (ds ++ [last]) = ds.flatMap (fun d => d.tokens ++ [.comma]) ++ last.tokens := by
  induction ds with
  | nil => simp
  | cons d ds ih =>
    cases ds with
    | nil => simp [argTokens_cons_cons]
    | cons e es =>
      rw [List.cons_append, List.cons_append, argTokens_cons_cons, ← List.cons_append, ih]
      simp

/-- Rows seen from the last one: each other has an `=` after it. -/
theorem rowsTokens_concat (rows : List (List Derivation)) (last : List Derivation) :
    rowsTokens (rows ++ [last]) =
      rows.flatMap (fun row => rowTokens row ++ [.equals]) ++ rowTokens last := by
  induction rows with
  | nil => simp [rowsTokens]
  | cons row rows ih =>
    cases rows with
    | nil => simp [rowsTokens]
    | cons next others =>
      rw [List.cons_append, List.cons_append, rowsTokens_cons_cons, ← List.cons_append, ih]
      simp

end Derivation

/-- The derivation of a fragment. -/
inductive Sentence where
  | term (d : Derivation)
  /-- A key and its values. -/
  | keyed (key : String) (quote : Option Quote) (values : List Derivation)
  /-- A key, an operator and values. -/
  | operated (key : String) (quote : Option Quote) (operator : String)
      (values : List Derivation)
  deriving Repr, Inhabited

namespace Sentence

/-- The tokens that are derived. -/
def tokens : Sentence → List Token.Kind
  | term d => d.tokens
  | keyed key quote values => .text key quote :: .equals :: Derivation.rowTokens values
  | operated key quote operator values =>
    .text key quote :: .equals :: .text operator none :: .equals :: Derivation.rowTokens values

/-- The rows of terms between the `=` signs. -/
def rows : Sentence → List (List Derivation)
  | term d => [[d]]
  | keyed key quote values => [[.text key quote], values]
  | operated key quote operator values => [[.text key quote], [.text operator none], values]

theorem rowsTokens_rows (f : Sentence) : Derivation.rowsTokens f.rows = f.tokens := by
  cases f <;> simp [rows, tokens, Derivation.rowsTokens, Derivation.rowTokens]

/-- The term that is built.  A single call after a key takes the key as its
first argument; all other values are compared with it. -/
def built : Sentence → Term
  | term d => d.term
  | keyed key quote [.call name args] =>
    .call name (.leaf key quote :: args.map Derivation.term)
  | keyed key quote values => .call "eq" (.leaf key quote :: Derivation.values values)
  | operated key quote operator values =>
    .call operator (.leaf key quote :: Derivation.values values)

end Sentence
end ResourceQuery.Fragment

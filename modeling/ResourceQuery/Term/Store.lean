import ResourceQuery.Term

set_option autoImplicit false

/-!
# Term: the store of a request

All words of one request live in one store and are named by their position in
it.  A word knows the words under it and the word above it, so terms can be
taken apart and put together again without copying.  Nothing is ever removed: a
detached term stays in the store, only no longer under its former parent.

`Store.read` gives the term at an id; `Store.plant` adds a term.
-/

namespace ResourceQuery

/-- The name of a word in a store. -/
structure WordId where
  index : Nat
  deriving DecidableEq, Repr, Inhabited

/-- A word in a store, with the ids of the words under it and above it. -/
structure Word where
  token : String
  quote : Option Quote
  children : List WordId
  parent : Option WordId
  deriving DecidableEq, Repr, Inhabited

/-- The words of one request. -/
structure Store where
  words : Array Word
  deriving DecidableEq, Repr, Inhabited

namespace Store

/-- The store without words. -/
def empty : Store := ⟨#[]⟩

/-- The number of words ever added. -/
def size (s : Store) : Nat := s.words.size

/-- The word at an id; an id from elsewhere names an empty leaf. -/
def word (s : Store) (id : WordId) : Word :=
  s.words[id.index]?.getD ⟨"", none, [], none⟩

/-- The text of a word. -/
def token (s : Store) (id : WordId) : String := (s.word id).token

/-- The quotes of a word. -/
def quote (s : Store) (id : WordId) : Option Quote := (s.word id).quote

/-- The ids of the arguments. -/
def children (s : Store) (id : WordId) : List WordId := (s.word id).children

/-- The id of the word that this one is an argument of. -/
def parent (s : Store) (id : WordId) : Option WordId := (s.word id).parent

/-- The word has no arguments. -/
def isLeaf (s : Store) (id : WordId) : Bool := (s.children id).isEmpty

/-- The word was written in quotes. -/
def isQuoted (s : Store) (id : WordId) : Bool := (s.quote id).isSome

/-- The word is `word`, without regard to case; a quoted word is no word. -/
def hasToken (s : Store) (id : WordId) (word : String) : Bool :=
  !s.isQuoted id && Text.sameWord (s.token id) word

/-! ## Reading -/

/-- The term at an id, down to `depth` words below it. -/
def readTo (s : Store) : Nat → WordId → Term
  | 0, id => .node (s.token id) (s.quote id) []
  | depth + 1, id => .node (s.token id) (s.quote id) ((s.children id).map (s.readTo depth))

/-- The term at an id.  No term is deeper than the store is large. -/
def read (s : Store) (id : WordId) : Term := s.readTo s.size id

/-- The terms at two ids, the second one of another store, have the same words
in the same quotes with the same arguments, as is found out within `depth` words
below them. -/
def sameShapeTo (s other : Store) : Nat → WordId → WordId → Bool
  | 0, _, _ => false
  | depth + 1, a, b =>
    s.token a == other.token b && s.quote a == other.quote b &&
      (s.children a).length == (other.children b).length &&
      ((s.children a).zip (other.children b)).all fun p => s.sameShapeTo other depth p.1 p.2

/-- The terms at two ids, the second one of another store, have the same words
in the same quotes with the same arguments. -/
def sameShape (s : Store) (a : WordId) (other : Store) (b : WordId) : Bool :=
  s.sameShapeTo other s.size a b

/-- The ids of a term, each word before its arguments, down to `depth`. -/
def preorderTo (s : Store) : Nat → WordId → List WordId
  | 0, id => [id]
  | depth + 1, id => id :: (s.children id).flatMap (s.preorderTo depth)

/-- The ids of a term, each word before its arguments. -/
def preorder (s : Store) (id : WordId) : List WordId := s.preorderTo s.size id

/-- The first word of a term that is one of `words`. -/
def findFirst (s : Store) (id : WordId) (words : List String) : Option WordId :=
  (s.preorder id).find? fun i => words.any (s.hasToken i)

/-- The words of a term that are `word`. -/
def findAll (s : Store) (id : WordId) (word : String) : List WordId :=
  (s.preorder id).filter fun i => s.hasToken i word

/-- The id, the word above it, and so on, at most `depth` of them. -/
def ancestorsTo (s : Store) : Nat → WordId → List WordId
  | 0, id => [id]
  | depth + 1, id =>
    match s.parent id with
    | none => [id]
    | some p => id :: s.ancestorsTo depth p

/-- `above` is the word itself or stands above it. -/
def isAncestor (s : Store) (above id : WordId) : Bool :=
  (s.ancestorsTo s.size id).contains above

/-! ## Adding -/

/-- Adds a word without arguments. -/
def leaf (s : Store) (token : String) (quote : Option Quote) : WordId × Store :=
  (⟨s.size⟩, ⟨s.words.push ⟨token, quote, [], none⟩⟩)

/-- Changes the word at an id. -/
def update (s : Store) (id : WordId) (f : Word → Word) : Store :=
  ⟨s.words.modify id.index f⟩

@[simp] theorem size_leaf (s : Store) (token : String) (quote : Option Quote) :
    (s.leaf token quote).2.size = s.size + 1 := by
  simp [leaf, size]

theorem word_leaf (s : Store) (token : String) (quote : Option Quote) (id : WordId) :
    (s.leaf token quote).2.word id =
      if id = ⟨s.size⟩ then ⟨token, quote, [], none⟩ else s.word id := by
  obtain ⟨i⟩ := id
  simp only [leaf, word, size, Array.getElem?_push, WordId.mk.injEq]
  split <;> rfl

@[simp] theorem size_update (s : Store) (id : WordId) (f : Word → Word) :
    (s.update id f).size = s.size := by
  simp [update, size]

/-- Only the word at the id changes. -/
theorem word_update (s : Store) (id : WordId) (f : Word → Word) (other : WordId) :
    (s.update id f).word other =
      if other = id ∧ id.index < s.size then f (s.word id) else s.word other := by
  obtain ⟨i⟩ := id
  obtain ⟨j⟩ := other
  simp only [update, word, size, Array.getElem?_modify, WordId.mk.injEq]
  by_cases hij : j = i
  · subst hij
    by_cases hlt : j < s.words.size <;> simp [hlt]
  · simp [hij, Ne.symm hij]

/-- Replaces the text of a word. -/
def setToken (s : Store) (id : WordId) (token : String) : Store :=
  s.update id fun n => { n with token }

/-- Puts `child` among the arguments of `parent`, before the one at `index`. -/
def insertChild (s : Store) (parent : WordId) (index : Nat) (child : WordId) : Store :=
  (s.update parent fun n => { n with children := n.children.insertIdx index child }).update child
    fun n => { n with parent := some parent }

/-- Puts `child` behind the arguments of `parent`. -/
def pushChild (s : Store) (parent child : WordId) : Store :=
  s.insertChild parent (s.children parent).length child

/-- Adds a word and puts the arguments under it. -/
def adopt (s : Store) (token : String) (quote : Option Quote) (children : List WordId) :
    WordId × Store :=
  let (id, s) := s.leaf token quote
  (id, children.foldl (fun s child => s.pushChild id child) s)

/-- Adds an unquoted word and puts the arguments under it. -/
def call (s : Store) (token : String) (children : List WordId) : WordId × Store :=
  s.adopt token none children

mutual

/-- Adds a term: the arguments first, then the word. -/
def plant (s : Store) : Term → WordId × Store
  | .node token quote children =>
    let (ids, s) := plantAll s children
    s.adopt token quote ids

/-- Adds terms one after the other. -/
def plantAll (s : Store) : List Term → List WordId × Store
  | [] => ([], s)
  | t :: ts =>
    let (id, s) := plant s t
    let (ids, s) := plantAll s ts
    (id :: ids, s)

end

/-- Adds a copy of the term at `id` of another store. -/
def graft (s source : Store) (id : WordId) : WordId × Store := s.plant (source.read id)

/-- Adds a copy of the term at `id`. -/
def duplicate (s : Store) (id : WordId) : WordId × Store := s.plant (s.read id)

/-! ## Taking apart -/

/-- Takes a word from among the arguments that it stands in. -/
def detach (s : Store) (id : WordId) : Store :=
  match s.parent id with
  | none => s
  | some p =>
    (s.update id fun n => { n with parent := none }).update p
      fun n => { n with children := n.children.filter (· ≠ id) }

/-- Takes several words from among the arguments that they stand in. -/
def detachAll (s : Store) (ids : List WordId) : Store := ids.foldl detach s

/-- The list with the first occurrence of `old` exchanged for `new`. -/
def exchange (old new : WordId) : List WordId → List WordId
  | [] => []
  | id :: ids => if id = old then new :: ids else id :: exchange old new ids

/-- Puts `new` where `old` stands.  `false` when `old` stands nowhere; `new` is
detached even then. -/
def replace (s : Store) (old new : WordId) : Bool × Store :=
  if old = new then (true, s)
  else
    let s := s.detach new
    match s.parent old with
    | none => (false, s)
    | some p =>
      let s := s.update old fun n => { n with parent := none }
      let s := s.update p fun n => { n with children := exchange old new n.children }
      (true, s.update new fun n => { n with parent := some p })

end Store
end ResourceQuery

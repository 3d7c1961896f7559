import ResourceQuery.Term.Printer

set_option autoImplicit false

/-!
# Fragments

A fragment writes one term, in one of three ways:

* as a call: `eq(name,Bob)`, `and(gt(age,18),n(deleted))`;
* as a key and its values: `name=Bob` is `eq(name,Bob)`, and `age=gt(18)` is
  `gt(age,18)`;
* as a key, an operator and values: `age=ge=18` is `ge(age,18)`.

The tokens are read from left to right with the open calls on a stack.  A leaf
is built when its text has been read, a call when it is closed; a call that
turns out to stand behind a key gets the key in front of the arguments that it
already has.

What is built, and where, is left to a `Builder`.  The reader is written once
over any builder: `parse` builds terms, and the store of a request builds words
in place.  A fault therefore leaves behind whatever had been built by then,
which matters for a store, where nothing is ever removed.
-/

namespace ResourceQuery
namespace Fragment

/-! ## Building -/

/-- How the terms of a fragment are built: `α` names what has been built, and
the state `σ` is what it has been built in. -/
structure Builder (σ α : Type) where
  /-- A word without arguments. -/
  leaf : σ → String → Option Quote → α × σ
  /-- An unquoted word over arguments. -/
  call : σ → String → List α → α × σ
  /-- A key, and a call that has been built; the key is put in front of the
  arguments of the call. -/
  prepend : σ → α → α → α × σ
  /-- The text of a word that is not quoted. -/
  word? : σ → α → Option String
  /-- The canonical text. -/
  text : σ → α → String

/-- Terms are built out of nothing. -/
def terms : Builder Unit Term where
  leaf _ text quote := (.leaf text quote, ())
  call _ name args := (.call name args, ())
  prepend _ key call := (.node call.token call.quote (key :: call.children), ())
  word? _ t := if t.quote.isSome then none else some t.token
  text _ t := t.render

/-! ## The state of the reader -/

/-- A complete term at the top level, and whether it was written with
parentheses. -/
structure Piece (α : Type) where
  item : α
  isCall : Bool
  deriving DecidableEq, Repr, Inhabited

/-- An open call: its name and the arguments so far, last first. -/
structure Frame (α : Type) where
  name : String
  args : List α
  deriving DecidableEq, Repr, Inhabited

/-- What may come next inside a call. -/
inductive Place where
  /-- Right after the opening parenthesis. -/
  | first
  /-- After a comma. -/
  | argument
  /-- After an argument. -/
  | separator
  deriving DecidableEq, Repr, Inhabited

/-- What has been read of a fragment: the stretches between the `=` signs so
far, last first, the pieces of each last first; and the open calls, innermost
first, with the place reached in the innermost one. -/
structure State (α : Type) where
  segments : List (List (Piece α))
  frames : List (Frame α)
  place : Place
  deriving DecidableEq, Repr, Inhabited

variable {σ α : Type}

namespace State

/-- Nothing read yet. -/
def start : State α := ⟨[[]], [], .first⟩

/-- A complete term arrives: an argument of the innermost open call, or a piece
at the top level. -/
def accept (st : State α) (item : α) (isCall : Bool) : State α :=
  match st.frames with
  | frame :: frames =>
    ⟨st.segments, ⟨frame.name, item :: frame.args⟩ :: frames, .separator⟩
  | [] =>
    match st.segments with
    | segment :: segments => ⟨(⟨item, isCall⟩ :: segment) :: segments, [], .separator⟩
    | [] => ⟨[[⟨item, isCall⟩]], [], .separator⟩

/-- A text arrives that opens no call, and its leaf is built. -/
def addLeaf (b : Builder σ α) (s : σ) (st : State α) (text : String) (quote : Option Quote) :
    State α × σ :=
  let (item, s) := b.leaf s text quote
  (st.accept item false, s)

/-- A call is opened. -/
def openCall (st : State α) (name : String) : State α :=
  ⟨st.segments, ⟨name, []⟩ :: st.frames, .first⟩

/-- The innermost call is closed, and built. -/
def closeCall (b : Builder σ α) (s : σ) (st : State α) : State α × σ :=
  match st.frames with
  | frame :: frames =>
    let (item, s) := b.call s frame.name frame.args.reverse
    (accept ⟨st.segments, frames, .separator⟩ item true, s)
  | [] => (st, s)

/-- An `=` at the top level. -/
def divide (st : State α) : State α := ⟨[] :: st.segments, st.frames, st.place⟩

/-- The rows between the `=` signs, in the order of reading. -/
def rows (st : State α) : List (List (Piece α)) := (st.segments.map List.reverse).reverse

end State

/-! ## Reading the tokens -/

/-- The fault of a token that cannot stand where it does. -/
def unexpected (expected : String) (token : Token) : Fault :=
  .grammar (.unexpected expected token.shown token.start)

/-- Reads the tokens to their end.  `ending` is the fault that ended them. -/
def readTokens (b : Builder σ α) (ending : Option LexicalFault) :
    List Token → State α → σ → Except Fault (State α) × σ
  | [], st, s =>
    match ending, st.frames with
    | some fault, _ => (.error (.lexical fault), s)
    | none, frame :: _ => (.error (.grammar (.unclosedCall frame.name)), s)
    | none, [] => (.ok st, s)
  | token :: tokens, st, s =>
    match st.frames, st.place, token.kind with
    | [], _, .equals => readTokens b ending tokens st.divide s
    | _ :: _, .separator, .comma => readTokens b ending tokens { st with place := .argument } s
    | _ :: _, .separator, .closing =>
      let (st, s) := st.closeCall b s
      readTokens b ending tokens st s
    | _ :: _, .separator, _ => (.error (unexpected "',' or ')'" token), s)
    | _ :: _, .first, .closing =>
      let (st, s) := st.closeCall b s
      readTokens b ending tokens st s
    | _, _, .text text quote =>
      match tokens with
      | [] =>
        match ending with
        | some fault => (.error (.lexical fault), s)
        | none =>
          let (st, s) := st.addLeaf b s text quote
          readTokens b ending [] st s
      | next :: rest =>
        match next.kind, quote with
        | .opening, none => readTokens b ending rest (st.openCall text) s
        | .opening, some _ => (.error (.grammar (.quotedFunction text)), s)
        | _, _ =>
          let (st, s) := st.addLeaf b s text quote
          readTokens b ending (next :: rest) st s
    | [], _, _ => (.error (unexpected "a term" token), s)
    | frame :: _, _, .comma => (.error (.grammar (.emptyArgument frame.name)), s)
    | frame :: _, _, .closing => (.error (.grammar (.emptyArgument frame.name)), s)
    | _ :: _, _, _ => (.error (unexpected "an argument" token), s)

/-! ## From pieces to a term -/

/-- The key before the first `=`: a single leaf. -/
def key (fragment : String) : List (Piece α) → Except Fault α
  | [] => .error (.grammar (.emptyKey fragment))
  | [⟨item, false⟩] => .ok item
  | _ => .error (.grammar (.unexpected "a single column name before '='" fragment 0))

/-- The bare word of a piece that is no call. -/
def Piece.word? (b : Builder σ α) (s : σ) (piece : Piece α) : Option String :=
  if piece.isCall then none else b.word? s piece.item

/-- The operator between two `=` signs: a single bare word. -/
def operator (b : Builder σ α) (s : σ) (fragment : String) (pieces : List (Piece α)) :
    Except Fault String :=
  match pieces.map (Piece.word? b s) with
  | [some name] => .ok name
  | _ => .error (.grammar (.unexpected "an operator between '=' signs" fragment 0))

/-- The values after the last `=`; no value stands for the empty text. -/
def values (b : Builder σ α) (s : σ) : List (Piece α) → List α × σ
  | [] =>
    let (item, s) := b.leaf s "" (some .double)
    ([item], s)
  | pieces => (pieces.map Piece.item, s)

/-- A key is compared with the values after it. -/
def compared (b : Builder σ α) (s : σ) (operator : String) (key : α) (pieces : List (Piece α)) :
    α × σ :=
  let (items, s) := values b s pieces
  b.call s operator (key :: items)

/-- A key and values: a single call takes the key as its first argument, and
anything else is compared with it. -/
def keyValues (b : Builder σ α) (s : σ) (key : α) : List (Piece α) → α × σ
  | [⟨call, true⟩] => b.prepend s key call
  | pieces => compared b s "eq" key pieces

/-- The only term of a fragment without `=`. -/
def single (b : Builder σ α) (s : σ) (fragment : String) : List (Piece α) → Except Fault α
  | [piece] => .ok piece.item
  | [] => .error (.grammar (.unexpected "a term" "end of input" fragment.utf8ByteSize))
  | _ :: second :: _ =>
    .error (.grammar (.unexpected "'=' or end of input" (b.text s second.item) 0))

/-- The term of the rows between the `=` signs. -/
def assemble (b : Builder σ α) (s : σ) (fragment : String) :
    List (List (Piece α)) → Except Fault α × σ
  | [] => (single b s fragment [], s)
  | [only] => (single b s fragment only, s)
  | [left, right] =>
    match key fragment left with
    | .error fault => (.error fault, s)
    | .ok key =>
      let (item, s) := keyValues b s key right
      (.ok item, s)
  | [left, middle, right] =>
    match key fragment left with
    | .error fault => (.error fault, s)
    | .ok key =>
      match operator b s fragment middle with
      | .error fault => (.error fault, s)
      | .ok operator =>
        let (item, s) := compared b s operator key right
        (.ok item, s)
  | _ => (.error (.grammar (.tooManyOperators fragment)), s)

/-- Reads a fragment and builds its term. -/
def parseWith (b : Builder σ α) (s : σ) (fragment : String) : Except Fault α × σ :=
  let (tokens, ending) := Token.stream fragment
  match readTokens b ending tokens .start s with
  | (.error fault, s) => (.error fault, s)
  | (.ok st, s) => assemble b s fragment st.rows

/-- The term that a fragment writes. -/
def parse (fragment : String) : Except Fault Term := (parseWith terms () fragment).1

end Fragment

end ResourceQuery

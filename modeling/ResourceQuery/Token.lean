import ResourceQuery.Lexeme
import ResourceQuery.Text.Blank

set_option autoImplicit false

/-!
# Tokens

The lexemes of a fragment are read from left to right with the depth of open
parentheses in hand: outside a call commas disappear and `=` divides a key from
its values, inside a call commas divide arguments and `=` is ordinary text.
Neighbouring bare stretches make one text, so `first name` is a single literal.
-/

namespace ResourceQuery
namespace Token

/-- What a token is. -/
inductive Kind where
  | opening
  | closing
  | comma
  | equals
  | text (text : String) (quote : Option Quote)
  deriving DecidableEq, Repr, Inhabited

end Token

/-- A token and the bytes of the source that it spans. -/
structure Token where
  kind : Token.Kind
  start : Nat
  stop : Nat
  deriving DecidableEq, Repr, Inhabited

namespace Token

/-- Characters that carry meaning in a fragment.  A backslash before one of them
stands for the character itself. -/
def isStructural (c : Char) : Bool :=
  c == '(' || c == ')' || c == ',' || c == '=' || c == '\'' || c == '"' || Text.isBlank c

/-- The characters that a stretch stands for.  Escapes of other than structural
characters, a doubled backslash included, are kept as they are, so that an
encoding inside the text is undone exactly once, by its own decoder. -/
def unescape : List Char → List Char
  | [] => []
  | '\\' :: cs =>
    match cs with
    | [] => ['\\']
    | c :: rest => if isStructural c then c :: unescape rest else '\\' :: c :: unescape rest
  | c :: cs => c :: unescape cs

/-- The token as it is shown in messages. -/
def shown (t : Token) : String :=
  match t.kind with
  | .opening => "("
  | .closing => ")"
  | .comma => ","
  | .equals => "="
  | .text text none => text
  | .text text (some q) => String.singleton q.char ++ text ++ String.singleton q.char

/-- The inner characters of a quoted stretch. -/
def unquoted (body : List Char) : List Char := (body.drop 1).dropLast

/-- A text under way: where it starts, where it stops so far, its characters. -/
structure Run where
  start : Nat
  stop : Nat
  chars : List Char
  deriving DecidableEq, Repr, Inhabited

/-- The text token of a finished run. -/
def Run.token (r : Run) : Token :=
  ⟨.text (String.ofList (unescape r.chars)) none, r.start, r.stop⟩

/-- Tokens up to a possible fault. -/
abbrev Stream := List Token × Option LexicalFault

/-- A token before a stream. -/
def Stream.cons (t : Token) (s : Stream) : Stream := (t :: s.1, s.2)

/-- The tokens of the lexemes, which start at the byte offset `position` with
`depth` parentheses open.  `run` is the bare text under way, if any.  A fault
that ends the lexemes takes a text under way with it. -/
def ofLexemes (fault : Option LexicalFault) :
    Nat → Nat → Option Run → List Lexeme → Stream
  | _, _, none, [] => ([], fault)
  | _, _, some r, [] =>
    match fault with
    | some f => ([], some f)
    | none => ([r.token], none)
  | position, depth, run, lexeme :: lexemes =>
    let start := position + Lexeme.byteLength lexeme.gap
    let stop := start + Lexeme.byteLength lexeme.body
    let extended : Run := match run with
      | some r => ⟨r.start, stop, r.chars ++ lexeme.gap ++ lexeme.body⟩
      | none => ⟨start, stop, lexeme.body⟩
    let emit (s : Stream) : Stream := match run with
      | some r => s.cons r.token
      | none => s
    match lexeme.kind with
    | .bare => ofLexemes fault stop depth (some extended) lexemes
    | .equals =>
      if depth = 0 then
        emit ((ofLexemes fault stop depth none lexemes).cons ⟨.equals, start, stop⟩)
      else ofLexemes fault stop depth (some extended) lexemes
    | .comma =>
      if depth = 0 then emit (ofLexemes fault stop depth none lexemes)
      else emit ((ofLexemes fault stop depth none lexemes).cons ⟨.comma, start, stop⟩)
    | .opening =>
      emit ((ofLexemes fault stop (depth + 1) none lexemes).cons ⟨.opening, start, stop⟩)
    | .closing =>
      match depth with
      | 0 => emit ([], some (.strayClosing start))
      | depth + 1 =>
        emit ((ofLexemes fault stop depth none lexemes).cons ⟨.closing, start, stop⟩)
    | .quoted q =>
      let text := String.ofList (unescape (unquoted lexeme.body))
      emit ((ofLexemes fault stop depth none lexemes).cons ⟨.text text (some q), start, stop⟩)

/-- The tokens of a source, up to a possible fault. -/
def stream (source : String) : Stream :=
  let (lexemes, fault) := Lexeme.scan 0 source.toList
  ofLexemes fault 0 0 none lexemes

/-- All tokens of a source. -/
def tokenize (source : String) : Except LexicalFault (List Token) :=
  match stream source with
  | (tokens, none) => .ok tokens
  | (_, some fault) => .error fault

/-! ## Reading token by token -/

/-- A source and the tokens not yet read from it. -/
structure Reader where
  source : String
  pending : Stream
  deriving DecidableEq, Repr, Inhabited

/-- A reader at the start of the source. -/
def Reader.new (source : String) : Reader := ⟨source, stream source⟩

/-- The next token or fault.  After a fault or the end there is none. -/
def Reader.next (r : Reader) : Option (Except LexicalFault Token) × Reader :=
  match r.pending with
  | (token :: tokens, fault) => (some (.ok token), ⟨r.source, (tokens, fault)⟩)
  | ([], some fault) => (some (.error fault), ⟨r.source, ([], none)⟩)
  | ([], none) => (none, r)

/-- Back to the start of the source. -/
def Reader.restart (r : Reader) : Reader := .new r.source

end Token
end ResourceQuery

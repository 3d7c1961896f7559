set_option autoImplicit false

/-!
# Faults

Everything that can go wrong between a query string and a compiled statement, as
causes.  `Fault.message` is the only place where a fault is put into words, and
`Fault.status` says who is to blame for it.
-/

namespace ResourceQuery

/-- A source that does not divide into tokens.  Positions are byte offsets. -/
inductive LexicalFault where
  | unterminatedQuote (position : Nat)
  | danglingEscape (position : Nat)
  | strayClosing (position : Nat)
  deriving DecidableEq, Repr, Inhabited

/-- Tokens that make no term, or a term that its clause or target refuses. -/
inductive GrammarFault where
  | unexpected (expected found : String) (position : Nat)
  | unclosedCall (name : String)
  | emptyArgument (name : String)
  | quotedFunction (text : String)
  | tooManyOperators (fragment : String)
  | emptyKey (fragment : String)
  | unknownTerm (text : String)
  | arity (name expected : String)
  | keyArity (index key : String) (expected found : Nat)
  | emptyKeyComponent (index key : String)
  | nonUniqueIndex (index : String)
  | invalidKeyEscape (key : String)
  | invalidValue (column value expected : String)
  | invalidPaging (name value : String)
  | expectedColumn (name : String)
  | depthExceeded (limit : Nat) (path : String)
  deriving DecidableEq, Repr, Inhabited

/-- A name that the catalog does not resolve. -/
inductive CatalogFault where
  | unknownCollection (name : String)
  | unknownColumn (collection column : String)
  | unknownRelationship (collection relationship : String)
  | unknownIndex (collection index : String)
  | misconfigured (collection reason : String)
  deriving DecidableEq, Repr, Inhabited

/-- Any failure between a query string and a compiled statement. -/
inductive Fault where
  | lexical (cause : LexicalFault)
  | grammar (cause : GrammarFault)
  | catalog (cause : CatalogFault)
  | unsupported (backend feature alternatives : String)
  deriving DecidableEq, Repr, Inhabited

/-! ## Wording -/

/-- A lexical fault in words. -/
def LexicalFault.message : LexicalFault → String
  | .unterminatedQuote p => s!"Unterminated quote starting at {p}"
  | .danglingEscape p => s!"Dangling escape character at {p}"
  | .strayClosing p => s!"Unbalanced ')' at {p}"

/-- A grammar fault in words. -/
def GrammarFault.message : GrammarFault → String
  | .unexpected expected found position =>
    s!"Unexpected token '{found}' at {position}, expected {expected}"
  | .unclosedCall name => s!"Function '{name}' is missing its closing ')'"
  | .emptyArgument name => s!"Empty argument in call to '{name}'"
  | .quotedFunction text => s!"Quoted literal '{text}' cannot be called as a function"
  | .tooManyOperators fragment => s!"Too many '=' operators in '{fragment}'"
  | .emptyKey fragment => s!"Missing key before '=' in '{fragment}'"
  | .unknownTerm text => s!"Unknown query term '{text}'"
  | .arity name expected => s!"Function '{name}' expects {expected}"
  | .keyArity index key expected found =>
    s!"Key '{key}' has {found} components but index '{index}' has {expected} columns"
  | .emptyKeyComponent index key => s!"Key '{key}' for index '{index}' has an empty component"
  | .nonUniqueIndex index => s!"Index '{index}' is not unique and cannot address rows by key"
  | .invalidKeyEscape key => s!"Invalid escape sequence in key '{key}'"
  | .invalidValue column value expected =>
    s!"Value '{value}' is not a valid {expected} for column '{column}'"
  | .invalidPaging name value => s!"Invalid paging value '{value}' for '{name}'"
  | .expectedColumn name => s!"Expected a column name as the first argument of '{name}'"
  | .depthExceeded limit path => s!"Relationship depth exceeded in '{path}' (max: {limit})"

/-- A catalog fault in words. -/
def CatalogFault.message : CatalogFault → String
  | .unknownCollection name => s!"Unknown collection: {name}"
  | .unknownColumn collection column =>
    s!"Unknown column '{column}' on collection '{collection}'"
  | .unknownRelationship collection relationship =>
    s!"Unknown relationship '{relationship}' on collection '{collection}'"
  | .unknownIndex collection index => s!"Unknown index '{index}' on collection '{collection}'"
  | .misconfigured collection reason =>
    s!"Collection '{collection}' is misconfigured: {reason}"

/-- A fault in words. -/
def Fault.message : Fault → String
  | .lexical cause => cause.message
  | .grammar cause => cause.message
  | .catalog cause => cause.message
  | .unsupported backend feature alternatives =>
    s!"The {backend} backend does not support '{feature}' (supported alternatives: {alternatives})"

/-! ## Blame -/

/-- The lookup failed because of something the caller typed, and not because of
the catalog itself. -/
def CatalogFault.isCallers : CatalogFault → Bool
  | .unknownCollection _ | .misconfigured _ _ => false
  | _ => true

/-- The response status of a fault: 500 for a broken catalog, 400 otherwise. -/
def Fault.status : Fault → Nat
  | .catalog cause => if cause.isCallers then 400 else 500
  | _ => 400

end ResourceQuery

import ResourceQuery.Json

set_option autoImplicit false

/-!
# JSON: records

A record with named fields is written as an object.  It may also be given as an
array of its fields in order.  Fields that the record does not have are passed
over, and a field given twice is refused.
-/

namespace ResourceQuery.Json

/-- The fields of a record as they were given. -/
inductive Record where
  | named (fields : List (String × Json))
  | listed (names : List String) (items : List Json)

/-- No field of the record is given twice. -/
def givenOnce (names : List String) (fields : List (String × Json)) : Bool :=
  names.all fun name => (fields.filter fun f => f.1 == name).length ≤ 1

/-- The fields of a record with the given field names. -/
def record? (names : List String) : Json → Option Record
  | object fields => if givenOnce names fields then some (.named fields) else none
  | array items => if items.length ≤ names.length then some (.listed names items) else none
  | _ => none

/-- A field, if it was given. -/
def Record.get? : Record → String → Option Json
  | named fields, name => (fields.find? fun f => f.1 == name).map Prod.snd
  | listed names items, name => items[names.idxOf name]?

/-- A field that has to be given. -/
def Record.required {α : Type} (r : Record) (name : String) (decode : Json → Option α) :
    Option α :=
  (r.get? name).bind decode

/-- A field with a value for when it is not given. -/
def Record.optional {α : Type} (r : Record) (name : String) (standard : α)
    (decode : Json → Option α) : Option α :=
  match r.get? name with
  | some json => decode json
  | none => some standard

/-! ## Parts of records -/

/-- A text. -/
def text? : Json → Option String
  | text value => some value
  | _ => none

/-- A truth value. -/
def bool? : Json → Option Bool
  | bool value => some value
  | _ => none

/-- A whole number below `bound`. -/
def below? (bound : Nat) : Json → Option Nat
  | whole (.ofNat n) => if n < bound then some n else none
  | _ => none

/-- A value or `null`. -/
def nullable? {α : Type} (decode : Json → Option α) : Json → Option (Option α)
  | null => some none
  | json => (decode json).map some

/-- A list of values. -/
def list? {α : Type} (decode : Json → Option α) : Json → Option (List α)
  | array items => items.mapM decode
  | _ => none

/-- One of several names, each standing for a value.  A name may also be given
as the only field of an object, with nothing under it. -/
def oneOf? {α : Type} (choices : List (String × α)) : Json → Option α
  | text name => (choices.find? fun c => c.1 == name).map Prod.snd
  | object [(name, null)] => (choices.find? fun c => c.1 == name).map Prod.snd
  | _ => none

/-- A text or `null`. -/
def ofText? : Option String → Json
  | some value => text value
  | none => null

end ResourceQuery.Json

import ResourceQuery.Config
import ResourceQuery.Json.Record

set_option autoImplicit false

/-!
# Configuration as JSON

`encode` writes every field; `decode?` takes the standard setting for a field
that is left out.
-/

namespace ResourceQuery

/-- The bind styles with their names. -/
def MarkerStyle.choices : List (String × MarkerStyle) :=
  [.positional, .numbered].map fun s => (s.name, s)

/-- The settings as JSON. -/
def Config.encode (c : Config) : Json :=
  .object [("default_page_size", .whole c.defaultPageSize.toNat),
    ("max_page_size", .whole c.maxPageSize.toNat),
    ("max_relationship_depth", .whole c.maxRelationshipDepth.toNat),
    ("bind_style", .text c.markerStyle.name)]

/-- A whole number of 64 bits. -/
def Config.size? (json : Json) : Option UInt64 :=
  (json.below? (Number.wordCount 64)).map UInt64.ofNat

/-- A whole number of 8 bits. -/
def Config.depth? (json : Json) : Option UInt8 :=
  (json.below? (Number.wordCount 8)).map UInt8.ofNat

/-- The settings from JSON. -/
def Config.decode? (json : Json) : Option Config := do
  let r ← json.record? ["default_page_size", "max_page_size", "max_relationship_depth",
    "bind_style"]
  return {
    defaultPageSize :=
      ← r.optional "default_page_size" standard.defaultPageSize Config.size?
    maxPageSize := ← r.optional "max_page_size" standard.maxPageSize Config.size?
    maxRelationshipDepth :=
      ← r.optional "max_relationship_depth" standard.maxRelationshipDepth Config.depth?
    markerStyle := ← r.optional "bind_style" standard.markerStyle (Json.oneOf? MarkerStyle.choices) }

end ResourceQuery

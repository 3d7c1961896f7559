set_option autoImplicit false

/-!
# Configuration of the compiler
-/

namespace ResourceQuery

/-- How bound values are marked in a relational statement. -/
inductive MarkerStyle where
  /-- A `?` for each value. -/
  | positional
  /-- The dialect's numbered marker, where it has one. -/
  | numbered
  deriving DecidableEq, Repr, Inhabited

/-- The name of a bind style. -/
def MarkerStyle.name : MarkerStyle → String
  | .positional => "positional"
  | .numbered => "numbered"

/-- Settings shared by all targets. -/
structure Config where
  /-- The page size if the query gives none. -/
  defaultPageSize : UInt64
  /-- Larger pages are cut to this size. -/
  maxPageSize : UInt64
  /-- The largest number of relationships in one path. -/
  maxRelationshipDepth : UInt8
  markerStyle : MarkerStyle
  deriving DecidableEq, Repr

namespace Config

/-- The settings in force when none are given. -/
def standard : Config := ⟨100, 1000, 5, .positional⟩

instance : Inhabited Config := ⟨standard⟩

/-- The settings with other page sizes. -/
def withPages (c : Config) (defaultSize maxSize : UInt64) : Config :=
  { c with defaultPageSize := defaultSize, maxPageSize := maxSize }

/-- The settings with another bind style. -/
def withMarkers (c : Config) (style : MarkerStyle) : Config := { c with markerStyle := style }

end Config
end ResourceQuery

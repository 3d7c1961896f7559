import ResourceQuery.Catalog.Json
import ResourceQuery.Config.Json
import ResourceQuery.Proofs.Json.Leniency

set_option autoImplicit false

/-!
# JSON: catalogs and settings

Catalogs and settings come back from their JSON as they were, all parts in
order, whatever fields are added to it that they do not have and whatever
standard values are left out.

For each type there are three facts: its reader keeps what it reads under edits,
it reads what was written, and what was written is a record of its shape all
through. Each is put together from those of the fields, in the order in which
the types are built.
-/

namespace ResourceQuery

open Json (Shape Edit Edits Keeps Fits)

/-! ## Shapes -/

/-- The shape of a property. -/
def Property.shape : Shape :=
  .record [("name", .plain, none), ("column", .plain, some .null),
    ("type", .plain, some (.text "string")), ("nullable", .plain, some (.bool true))]

/-- The shape of an index. -/
def Index.shape : Shape :=
  .record [("name", .plain, none), ("kind", .plain, none), ("columns", .list .plain, none)]

/-- The shape of a key pair. -/
def ColumnPair.shape : Shape :=
  .record [("local", .plain, none), ("foreign", .plain, none)]

/-- The shape of a link table. -/
def Link.shape : Shape :=
  .record [("table", .plain, none), ("keys", .list ColumnPair.shape, none)]

/-- The shape of a relationship. -/
def Relationship.shape : Shape :=
  .record [("name", .plain, none), ("cardinality", .plain, none), ("related", .plain, none),
    ("keys", .list ColumnPair.shape, none), ("through", Link.shape, some .null)]

/-- The shape of a collection. -/
def Collection.shape : Shape :=
  .record [("name", .plain, none), ("table", .plain, some .null),
    ("properties", .list Property.shape, some (.array [])),
    ("indexes", .list Index.shape, some (.array [])),
    ("relationships", .list Relationship.shape, some (.array []))]

/-- The shape of a catalog. -/
def Catalog.shape : Shape := .record [("collections", .list Collection.shape, none)]

/-- The shape of settings; all of them have standard values. -/
def Config.shape : Shape :=
  .record [("default_page_size", .plain, some (.whole 100)),
    ("max_page_size", .plain, some (.whole 1000)),
    ("max_relationship_depth", .plain, some (.whole 5)),
    ("bind_style", .plain, some (.text "positional"))]

/-! ## Edits do not matter -/

section Keeps

open Json.Record.Keeps (bind pure required optional)

theorem Property.keeps_decode? : Keeps Property.shape Property.decode? :=
  .record (bind (required rfl (.plain _)) fun _ => bind (optional rfl (.plain _) rfl) fun _ =>
    bind (optional rfl (.plain _) rfl) fun _ => bind (optional rfl (.plain _) rfl) fun _ => pure _)

theorem Index.keeps_decode? : Keeps Index.shape Index.decode? :=
  .record (bind (required rfl (.plain _)) fun _ => bind (required rfl (.plain _)) fun _ =>
    bind (required rfl (.list (.plain _))) fun _ => pure _)

theorem ColumnPair.keeps_decode? : Keeps ColumnPair.shape ColumnPair.decode? :=
  .record (bind (required rfl (.plain _)) fun _ => bind (required rfl (.plain _)) fun _ => pure _)

theorem Link.keeps_decode? : Keeps Link.shape Link.decode? :=
  .record (bind (required rfl (.plain _)) fun _ =>
    bind (required rfl (.list ColumnPair.keeps_decode?)) fun _ => pure _)

theorem Relationship.keeps_decode? : Keeps Relationship.shape Relationship.decode? :=
  .record (bind (required rfl (.plain _)) fun _ => bind (required rfl (.plain _)) fun _ =>
    bind (required rfl (.plain _)) fun _ =>
    bind (required rfl (.list ColumnPair.keeps_decode?)) fun _ =>
    bind (optional rfl (.nullable Link.keeps_decode?) rfl) fun _ => pure _)

theorem Collection.keeps_decode? : Keeps Collection.shape Collection.decode? :=
  .record (bind (required rfl (.plain _)) fun _ => bind (optional rfl (.plain _) rfl) fun _ =>
    bind (optional rfl (.list Property.keeps_decode?) rfl) fun _ =>
    bind (optional rfl (.list Index.keeps_decode?) rfl) fun _ =>
    bind (optional rfl (.list Relationship.keeps_decode?) rfl) fun _ => pure _)

theorem Catalog.keeps_decode? : Keeps Catalog.shape Catalog.decode? :=
  .record (bind (required rfl (.list Collection.keeps_decode?)) fun _ => pure _)

theorem Config.keeps_decode? : Keeps Config.shape Config.decode? :=
  .record (bind (optional rfl (.plain _) rfl) fun _ => bind (optional rfl (.plain _) rfl) fun _ =>
    bind (optional rfl (.plain _) rfl) fun _ => bind (optional rfl (.plain _) rfl) fun _ => pure _)

end Keeps

/-! ## What is written is read back -/

section RoundTrip

@[simp] theorem Json.text?_text (value : String) : text? (.text value) = some value := rfl

@[simp] theorem Json.bool?_bool (value : Bool) : bool? (.bool value) = some value := rfl

@[simp] theorem Json.nullable?_ofText? (value : Option String) :
    nullable? text? (ofText? value) = some value := by
  cases value <;> rfl

theorem Json.list?_map {α : Type} {encode : α → Json} {decode : Json → Option α}
    (h : ∀ a, decode (encode a) = some a) (as : List α) :
    list? decode (.array (as.map encode)) = some as := by
  rw [list?]
  induction as with
  | nil => rfl
  | cons a as ih => rw [List.map_cons, List.mapM_cons, h, ih]; rfl

@[simp] theorem ColumnType.oneOf?_name (t : ColumnType) :
    Json.oneOf? ColumnType.choices (.text t.name) = some t := by
  cases t <;> decide

@[simp] theorem Index.Kind.oneOf?_name (k : Index.Kind) :
    Json.oneOf? Index.Kind.choices (.text k.name) = some k := by
  cases k <;> decide

@[simp] theorem Cardinality.oneOf?_name (c : Cardinality) :
    Json.oneOf? Cardinality.choices (.text c.name) = some c := by
  cases c <;> decide

@[simp] theorem MarkerStyle.oneOf?_name (s : MarkerStyle) :
    Json.oneOf? MarkerStyle.choices (.text s.name) = some s := by
  cases s <;> decide

@[simp] theorem Config.size?_whole (n : UInt64) : size? (.whole n.toNat) = some n := by
  have hbound : n.toNat < Number.wordCount 64 := n.toNat_lt
  show (if n.toNat < Number.wordCount 64 then some n.toNat else none).map UInt64.ofNat = some n
  rw [if_pos hbound, Option.map_some, UInt64.ofNat_toNat]

@[simp] theorem Config.depth?_whole (n : UInt8) : depth? (.whole n.toNat) = some n := by
  have hbound : n.toNat < Number.wordCount 8 := n.toNat_lt
  show (if n.toNat < Number.wordCount 8 then some n.toNat else none).map UInt8.ofNat = some n
  rw [if_pos hbound, Option.map_some, UInt8.ofNat_toNat]

attribute [local simp] Json.record? Json.givenOnce Json.Record.required Json.Record.optional
  Json.Record.get?

theorem Property.decode?_encode (p : Property) : Property.decode? p.encode = some p := by
  simp [Property.decode?, Property.encode]

theorem Index.decode?_encode (i : Index) : Index.decode? i.encode = some i := by
  simp [Index.decode?, Index.encode, Json.list?_map Json.text?_text]

theorem ColumnPair.decode?_encode (k : ColumnPair) : ColumnPair.decode? k.encode = some k := by
  simp [ColumnPair.decode?, ColumnPair.encode]

theorem Link.decode?_encode (l : Link) : Link.decode? l.encode = some l := by
  simp [Link.decode?, Link.encode, Json.list?_map ColumnPair.decode?_encode]

/-- A link table that is not there is written as `null`. -/
theorem Link.nullable?_encode (l : Option Link) :
    Json.nullable? Link.decode? ((l.map Link.encode).getD .null) = some l := by
  cases l with
  | none => rfl
  | some l =>
    show (Link.decode? l.encode).map some = some (some l)
    rw [Link.decode?_encode, Option.map_some]

theorem Relationship.decode?_encode (r : Relationship) :
    Relationship.decode? r.encode = some r := by
  simp [Relationship.decode?, Relationship.encode, Json.list?_map ColumnPair.decode?_encode,
    Link.nullable?_encode]

theorem Collection.decode?_encode (c : Collection) : Collection.decode? c.encode = some c := by
  simp [Collection.decode?, Collection.encode, Json.list?_map Property.decode?_encode,
    Json.list?_map Index.decode?_encode, Json.list?_map Relationship.decode?_encode]

theorem Catalog.decode?_encode (c : Catalog) : Catalog.decode? c.encode = some c := by
  simp [Catalog.decode?, Catalog.encode, Json.list?_map Collection.decode?_encode]

theorem Config.decode?_encode (c : Config) : Config.decode? c.encode = some c := by
  simp [Config.decode?, Config.encode]

end RoundTrip

/-! ## All objects are records -/

section Fits

open Json.Fits (nil cons)

theorem Property.fits_encode (p : Property) : Fits Property.shape p.encode :=
  cons rfl (.text _) (cons rfl (Json.fits_ofText? _) (cons rfl (.text _) (cons rfl (.bool _)
    (nil _))))

theorem Index.fits_encode (i : Index) : Fits Index.shape i.encode :=
  cons rfl (.text _) (cons rfl (.text _) (cons rfl (Json.fits_map .text _) (nil _)))

theorem ColumnPair.fits_encode (k : ColumnPair) : Fits ColumnPair.shape k.encode :=
  cons rfl (.text _) (cons rfl (.text _) (nil _))

theorem Link.fits_encode (l : Link) : Fits Link.shape l.encode :=
  cons rfl (.text _) (cons rfl (Json.fits_map ColumnPair.fits_encode _) (nil _))

theorem Relationship.fits_encode (r : Relationship) : Fits Relationship.shape r.encode := by
  have hthrough : Fits Link.shape ((r.through.map Link.encode).getD .null) := by
    cases r.through with
    | none => exact .null _
    | some l => exact l.fits_encode
  exact cons rfl (.text _) (cons rfl (.text _) (cons rfl (.text _)
    (cons rfl (Json.fits_map ColumnPair.fits_encode _) (cons rfl hthrough (nil _)))))

theorem Collection.fits_encode (c : Collection) : Fits Collection.shape c.encode :=
  cons rfl (.text _) (cons rfl (Json.fits_ofText? _)
    (cons rfl (Json.fits_map Property.fits_encode _) (cons rfl (Json.fits_map Index.fits_encode _)
      (cons rfl (Json.fits_map Relationship.fits_encode _) (nil _)))))

theorem Catalog.fits_encode (c : Catalog) : Fits Catalog.shape c.encode :=
  cons rfl (Json.fits_map Collection.fits_encode _) (nil _)

theorem Config.fits_encode (c : Config) : Fits Config.shape c.encode :=
  cons rfl (.whole _) (cons rfl (.whole _) (cons rfl (.whole _) (cons rfl (.text _) (nil _))))

end Fits

/-! ## Nothing is lost -/

/-- Catalogs and settings are read back from their JSON as they were, and also
when fields that they do not have were added to any of its objects and standard
values were left out of them. -/
theorem Json.exchange_loses_nothing :
    (∀ c : Catalog, Catalog.decode? c.encode = some c ∧ Fits Catalog.shape c.encode ∧
      ∀ json, Edits Catalog.shape c.encode json → Catalog.decode? json = some c) ∧
    (∀ c : Config, Config.decode? c.encode = some c ∧ Fits Config.shape c.encode ∧
      ∀ json, Edits Config.shape c.encode json → Config.decode? json = some c) :=
  ⟨fun c => ⟨c.decode?_encode, c.fits_encode,
      fun _ hedits => Catalog.keeps_decode?.edits hedits c.decode?_encode⟩,
    fun c => ⟨c.decode?_encode, c.fits_encode,
      fun _ hedits => Config.keeps_decode?.edits hedits c.decode?_encode⟩⟩

/-- Shops with one property. -/
def shopCatalog : Catalog := ⟨[⟨"shops", none, [⟨"id", none, .integer, true⟩], [], []⟩]⟩

/-- The JSON of the shops with a version, and with a property that does not say
that it may be null. -/
def shopJson : Json :=
  .object [("version", .whole 2), ("collections", .array [.object [("name", .text "shops"),
    ("table", .null), ("properties", .array [.object [("name", .text "id"), ("column", .null),
      ("type", .text "integer")]]), ("indexes", .array []), ("relationships", .array [])]])]

theorem Json.exchange_loses_nothing_of_shops :
    Edits Catalog.shape shopCatalog.encode shopJson ∧
      Catalog.decode? shopJson = some shopCatalog := by
  have hproperty : Edit Property.shape (Property.encode ⟨"id", none, .integer, true⟩)
      (.object [("name", .text "id"), ("column", .null), ("type", .text "integer")]) :=
    .drop [("name", .text "id"), ("column", .null), ("type", .text "integer")] [] (by rfl)
  have hcollection : Edit Collection.shape
      (Collection.encode ⟨"shops", none, [⟨"id", none, .integer, true⟩], [], []⟩)
      (.object [("name", .text "shops"), ("table", .null), ("properties", .array [.object
        [("name", .text "id"), ("column", .null), ("type", .text "integer")]]),
        ("indexes", .array []), ("relationships", .array [])]) :=
    .field [("name", .text "shops"), ("table", .null)]
      [("indexes", .array []), ("relationships", .array [])] (by rfl) (.item [] [] hproperty)
  have hedits : Edits Catalog.shape shopCatalog.encode shopJson :=
    .tail (.tail .refl (.field [] [] (by rfl) (.item [] [] hcollection)))
      (.add [] _ (by rfl) (.whole 2))
  exact ⟨hedits, (Json.exchange_loses_nothing.1 shopCatalog).2.2 shopJson hedits⟩

end ResourceQuery

import ResourceQuery.Target

set_option autoImplicit false

/-!
# The command line: arguments

Options come before, between or after the query, with long names or letters.
-/

namespace ResourceQuery.CommandLine

/-! ## Options -/

/-- The options with a value. -/
inductive Setting where
  | collection
  | target
  | catalog
  | config
  deriving DecidableEq, Repr, Inhabited

/-- The options without a value. -/
inductive Flag where
  | numbered
  | compact
  | verbose
  | help
  | version
  deriving DecidableEq, Repr, Inhabited

/-- What an option is. -/
inductive Switch where
  | setting (setting : Setting)
  | flag (flag : Flag)
  deriving DecidableEq, Repr, Inhabited

/-- The option of a long name. -/
def long? (name : List Char) : Option Switch :=
  match String.ofList name with
  | "collection" => some (.setting .collection)
  | "target" => some (.setting .target)
  | "catalog" => some (.setting .catalog)
  | "config" => some (.setting .config)
  | "numbered" => some (.flag .numbered)
  | "compact" => some (.flag .compact)
  | "verbose" => some (.flag .verbose)
  | "help" => some (.flag .help)
  | "version" => some (.flag .version)
  | _ => none

/-- The option of a letter. -/
def short? (c : Char) : Option Switch :=
  match c with
  | 'c' => some (.setting .collection)
  | 't' => some (.setting .target)
  | 'v' => some (.flag .verbose)
  | 'h' => some (.flag .help)
  | 'V' => some (.flag .version)
  | _ => none

/-- What the arguments ask for. -/
structure Options where
  query : Option String
  collection : Option String
  target : Option Target
  catalog : Option String
  config : Option String
  numbered : Bool
  compact : Bool
  deriving DecidableEq, Repr, Inhabited

/-- No arguments read. -/
def Options.start : Options := ⟨none, none, none, none, none, false, false⟩

/-- Why the arguments are not carried out. -/
inductive Stop where
  | usage
  | help
  | version
  deriving DecidableEq, Repr, Inhabited

/-- Takes up an option with its value.  No option may be given twice, a target
has to exist, and a file has to have a name. -/
def Options.set (o : Options) (setting : Setting) (value : String) : Except Stop Options :=
  match setting with
  | .collection =>
    if o.collection.isSome then .error .usage else .ok { o with collection := some value }
  | .target =>
    match o.target, Target.parse value with
    | none, .ok target => .ok { o with target := some target }
    | _, _ => .error .usage
  | .catalog =>
    if o.catalog.isSome ∨ value = "" then .error .usage
    else .ok { o with catalog := some value }
  | .config =>
    if o.config.isSome ∨ value = "" then .error .usage
    else .ok { o with config := some value }

/-- Takes up an option without a value. -/
def Options.raise (o : Options) (flag : Flag) : Except Stop Options :=
  match flag with
  | .numbered => if o.numbered then .error .usage else .ok { o with numbered := true }
  | .compact => if o.compact then .error .usage else .ok { o with compact := true }
  | .verbose => .ok o
  | .help => .error .help
  | .version => .error .version

/-- Takes up the query. -/
def Options.ask (o : Options) (query : String) : Except Stop Options :=
  if o.query.isSome then .error .usage else .ok { o with query := some query }

/-! ## Arguments -/

/-- What one argument is. -/
inductive Argument where
  /-- `--` -/
  | separator
  /-- `--name` or `--name=value` -/
  | long (name : List Char) (value : Option (List Char))
  /-- `-abc` -/
  | short (letters : List Char)
  | plain (text : String)
  deriving DecidableEq, Repr, Inhabited

/-- What an argument is. -/
def Argument.ofString (s : String) : Argument :=
  match s.toList with
  | ['-', '-'] => .separator
  | '-' :: '-' :: cs =>
    let name := cs.takeWhile (· ≠ '=')
    match cs.dropWhile (· ≠ '=') with
    | [] => .long name none
    | _ :: value => .long name (some value)
  | '-' :: c :: cs => .short (c :: cs)
  | _ => .plain s

/-- Takes up a run of letters.  An option with a value takes the rest of the run
as its value, or is left waiting for the next argument. -/
def letters (o : Options) : List Char → Except Stop (Options × Option Setting)
  | [] => .ok (o, none)
  | c :: cs =>
    match short? c with
    | none => .error .usage
    | some (.flag flag) => do
      let o ← o.raise flag
      letters o cs
    | some (.setting setting) =>
      match cs with
      | [] => .ok (o, some setting)
      | '=' :: value => do
        let o ← o.set setting (String.ofList value)
        return (o, none)
      | value => do
        let o ← o.set setting (String.ofList value)
        return (o, none)

/-- Takes up an argument outside of option values. -/
def argument (o : Options) : Argument → Except Stop (Options × Option Setting)
  | .separator => .ok (o, none)
  | .plain text => do
    let o ← o.ask text
    return (o, none)
  | .short cs => letters o cs
  | .long name value =>
    match long? name, value with
    | some (.flag flag), none => do
      let o ← o.raise flag
      return (o, none)
    | some (.setting setting), none => .ok (o, some setting)
    | some (.setting setting), some value => do
      let o ← o.set setting (String.ofList value)
      return (o, none)
    | _, _ => .error .usage

/-- Takes up the arguments.  `waiting` is the option whose value comes next. -/
def arguments (o : Options) (waiting : Option Setting) : List String → Except Stop Options
  | [] => if waiting.isSome then .error .usage else .ok o
  | text :: rest =>
    match waiting, Argument.ofString text with
    | some setting, .plain value => do
      let o ← o.set setting value
      arguments o none rest
    | some _, _ => .error .usage
    | none, .separator => rest.foldlM Options.ask o
    | none, a => do
      let (o, waiting) ← argument o a
      arguments o waiting rest

/-- What a complete command line asks for. -/
structure Command where
  query : String
  collection : String
  target : Target
  catalog : Option String
  config : Option String
  numbered : Bool
  compact : Bool
  deriving DecidableEq, Repr, Inhabited

/-- The command of the arguments.  The query and the collection have to be
given. -/
def parse (args : List String) : Except Stop Command := do
  let o ← arguments .start none args
  match o.query, o.collection with
  | some query, some collection =>
    return ⟨query, collection, o.target.getD (.sql .postgres), o.catalog, o.config, o.numbered,
      o.compact⟩
  | _, _ => throw .usage

end ResourceQuery.CommandLine

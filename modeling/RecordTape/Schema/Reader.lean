import RecordTape.Json.Reading
import RecordTape.Schema.Canonical
import RecordTape.Schema.SchemaError
import RecordTape.Value.Resolve
/-!
# Reading schemas

Turns a JSON value into a schema. A `Registry` holds the named types read so far and those that are
being read, which may already be referred to. It is kept when a part of a text is refused, because a
logical type over a base that does not carry it is given up in favour of the base, after the base
has been read once.

The recursion is on the JSON value. Each value is given a `Node`, which says how to read it and the
items it has, so that a schema object can read its attributes in the order that its form asks for.
-/

namespace RecordTape

structure Registry where
  /-- Types read to the end. -/
  complete : Names
  /-- Names and aliases of types still being read, with the name of the type. -/
  pending : List (Name × Name)

/-- Reading with a registry that outlives errors. -/
abbrev Reader (α : Type) := ExceptT (Stop SchemaError) (StateM Registry) α

abbrev Attributes := List (String × Json)

namespace Registry

def empty : Registry := ⟨[], []⟩

/-- A reference to the type of a full name. A type that is still being read is referred to by its
own name even when it is found by an alias. -/
def refer (r : Registry) (full : Name) : Option Schema :=
  if r.complete.defines full then some (.ref full)
  else (r.pending.lookup full).map .ref

/-- The type itself, where it has been read to the end; a type being read comes first. -/
def seen (r : Registry) (full : Name) : Option Schema :=
  match r.pending.lookup full with
  | some name => some (.ref name)
  | none => r.complete.find? full

def start (r : Registry) (name : Name) (aliases : List Name) : Registry :=
  { r with pending := (aliases.reverse.map (·, name)) ++ (name, name) :: r.pending }

def finish (r : Registry) (name : Name) (aliases : List Name) (s : Schema) : Registry :=
  let keys := name :: aliases
  { complete := (keys.reverse.map (·, s)) ++ r.complete
    pending := r.pending.filter fun (key, _) => !keys.contains key }

end Registry

namespace Reader

def fail {α : Type} (e : SchemaError) : Reader α := throw (.error e)

def crash {α : Type} (f : Fault) : Reader α := throw (.fault f)

def orFail {α : Type} (e : SchemaError) : Option α → Reader α
  | some a => pure a
  | none => fail e

end Reader

namespace Schema

open Reader

/-- A JSON value with the way it is read as a schema, and its items if it is an array. -/
structure Node where
  json : Json
  read : Namespace → Reader Schema
  items : List (Json × (Namespace → Reader Schema))

/-! ## Names -/

def textAttribute (key : String) (attributes : Attributes) : Option String :=
  (attributes.lookup key).bind Json.asString?

/-- The name of a definition. Its own namespace comes before the `namespace` attribute, and that
before the enclosing one. -/
def definitionName (attributes : Attributes) (enclosing : Namespace) : Reader Name := do
  let text ← orFail (.missing .name) (textAttribute "name" attributes)
  match Name.split text with
  | none => crash (.illFormedName text)
  | some (qualifier, base) =>
    let written := qualifier <|> textAttribute "namespace" attributes <|> enclosing
    match written.bind Name.nonEmpty with
    | none => return ⟨none, base⟩
    | some ns => if Name.isNamespace ns then return ⟨some ns, base⟩ else fail (.invalidNamespace ns)

/-- The aliases of a definition, in the namespace of its name. They count only if all are texts. -/
def definitionAliases (attributes : Attributes) (ns : Namespace) : Reader (List Name) := do
  let texts := ((attributes.lookup "aliases").bind Json.asArray?).bind (·.mapM Json.asString?)
  (texts.getD []).mapM fun text =>
    let dotted := if text.contains '.' then text else (Name.mk ns text).full
    match Name.parse dotted with
    | none => crash (.illFormedName dotted)
    | some name => pure (name.qualify ns)

/-- A name used as a type: a primitive, or a reference. -/
def readName (text : String) (enclosing : Namespace) : Reader Schema :=
  match text with
  | "null" => pure .null
  | "boolean" => pure .boolean
  | "int" => pure .int
  | "long" => pure .long
  | "float" => pure .float
  | "double" => pure .double
  | "bytes" => pure .bytes
  | "string" => pure .string
  | _ => do
    let name ← orFail (.invalidName text) (Name.parse text)
    let full := name.qualify enclosing
    orFail (.unknownType full) ((← get).refer full)

/-- The type that is called like the form of a definition; it stands for a definition of that form
without content. -/
def seenForm (form : String) (enclosing : Namespace) : Reader (Option Schema) := do
  return (← get).seen ((Name.mk none form).qualify enclosing)

/-! ## Definitions -/

/-- The symbols of an enumeration must be identifiers and differ, checked one by one. -/
def checkSymbols : (before : List String) → List String → Reader Unit
  | _, [] => pure ()
  | before, s :: rest => do
    if !Name.isIdentifier s.toList then fail (.invalidSymbol s)
    if before.contains s then fail (.duplicateSymbol s)
    checkSymbols (s :: before) rest

def readEnum (attributes : Attributes) (enclosing : Namespace) : Reader Schema := do
  if (attributes.lookup "symbols").isNone then
    if let some s ← seenForm "enum" enclosing then return s
  let name ← definitionName attributes enclosing
  let aliases ← definitionAliases attributes name.ns
  let items ← orFail (.missing .symbols) ((attributes.lookup "symbols").bind Json.asArray?)
  let symbols ← orFail .symbolsNotTexts (items.mapM Json.asString?)
  checkSymbols [] symbols
  let default ← match attributes.lookup "default" with
    | none => pure none
    | some (.string d) =>
      if symbols.contains d then pure (some d) else fail (.symbolDefaultUnknown d symbols)
    | some found => fail (.symbolDefaultNotText found)
  let schema := Schema.enum name symbols default
  modify (·.finish name aliases schema)
  return schema

def readFixed (attributes : Attributes) (enclosing : Namespace) : Reader Schema := do
  match attributes.lookup "size" with
  | none => do orFail (.missing .size) (← seenForm "fixed" enclosing)
  | some found =>
    let size ← match found with
      | .int n => if 0 ≤ n then pure n.toNat else fail (.sizeNotNatural found)
      | _ => fail (.sizeNotNatural found)
    let name ← definitionName attributes enclosing
    let aliases ← definitionAliases attributes name.ns
    let schema := Schema.fixed name size
    modify (·.finish name aliases schema)
    return schema

/-- A default must meet the schema of its field, or some branch of it if that is a union. Types that
are still being read are not known to it. -/
def checkDefault (field : String) (record : Name) (schema : Schema) (default : Option Json) :
    Reader Unit := do
  match default with
  | none => return
  | some json =>
    let names := (← get).complete
    let v := Value.ofJson json
    let meets (s : Schema) : Reader Bool :=
      match v.resolveWithin names s.ns s with
      | .ok _ => pure true
      | .error (.error _) => pure false
      | .error (.fault f) => crash f
    match schema with
    | .union branches =>
      if !(← branches.anyM meets) then
        match branches with
        | [] => fail .emptyUnion
        | first :: _ => fail (.unionDefault first.kind v.kind)
    | s =>
      if !(← meets s) then
        match s.canonical with
        | .ok text => fail (.fieldDefault field record.full text)
        | .error f => crash f

/-- A field of a record; the field object itself says what its type is. -/
def readField (record : Name) (attributes : Attributes) (read : Namespace → Reader Schema) :
    Reader (Field Schema) := do
  let name ← orFail (.missing .fieldName) (textAttribute "name" attributes)
  if !Name.isIdentifier name.toList then fail (.invalidFieldName name)
  let schema ← read record.ns
  let default := attributes.lookup "default"
  checkDefault name record schema default
  let aliases := ((attributes.lookup "aliases").bind Json.asArray?).getD []
  return ⟨name, aliases.filterMap Json.asString?, default, schema⟩

/-- No field may have a name that an earlier field has as name or alias. -/
def checkFieldNames : (taken : List String) → List (Field Schema) → Reader Unit
  | _, [] => pure ()
  | taken, field :: rest => do
    if taken.contains field.name then fail (.duplicateFieldName field.name)
    checkFieldNames (field.name :: field.aliases ++ taken) rest

/-- A record. It may be referred to while its fields are read. Items of `fields` that are no objects
are skipped. -/
def readRecord (nodes : List (String × Node)) (attributes : Attributes) (enclosing : Namespace) :
    Reader Schema := do
  if (nodes.lookup "fields").isNone then
    if let some s ← seenForm "record" enclosing then return s
  let name ← definitionName attributes enclosing
  let aliases ← definitionAliases attributes name.ns
  modify (·.start name aliases)
  match nodes.lookup "fields" with
  | some ⟨.array _, _, items⟩ =>
    let fields ← (items.filterMap fun (json, read) =>
      json.asObject?.map fun attributes => (attributes, read)).mapM fun (attributes, read) =>
        readField name attributes read
    checkFieldNames [] fields
    let schema := Schema.record name fields
    modify (·.finish name aliases schema)
    return schema
  | _ => fail (.missing .fields)

/-- The branches of a union: none a union, and of the unnamed kinds each once. -/
def checkBranches : (kinds : List Kind) → List Schema → Reader Unit
  | _, [] => pure ()
  | kinds, s :: rest => do
    if s.kind = .union then fail .nestedUnion
    if !s.kind.isNamed && kinds.contains s.kind then fail .duplicateBranch
    checkBranches (s.kind :: kinds) rest

def readUnion (items : List (Json × (Namespace → Reader Schema))) (enclosing : Namespace) :
    Reader Schema := do
  let branches ← items.mapM fun (_, read) => read enclosing
  checkBranches [] branches
  return .union branches

/-! ## Logical types -/

/-- The innermost text of nested `type` attributes. -/
def innermostType : Json → Reader Json
  | .string s => pure (.string s)
  | .object members => innermostMember members
  | _ => fail (.missing .type)
where
  /-- The innermost text of the `type` member. -/
  innermostMember : List (String × Json) → Reader Json
    | [] => fail (.missing .type)
    | (k, v) :: rest => if k = "type" then innermostType v else innermostMember rest

/-- The base of a logical type, which must be of one of the given kinds. -/
def readBase (nodes : List (String × Node)) (attributes : Attributes) (kinds : List Kind)
    (enclosing : Namespace) : Reader Schema := do
  let node ← orFail (.missing .logicalBase) (nodes.lookup "type")
  let base ← match node.json with
    | .string "fixed" => readFixed attributes enclosing
    | _ => node.read enclosing
  if kinds.contains base.kind then return base
  else fail (.logicalOverWrongBase (← innermostType node.json))

/-- A logical type that gives way to its base where the base does not carry it. -/
def readTime (nodes : List (String × Node)) (attributes : Attributes) (kind : Kind)
    (logical : Schema) (enclosing : Namespace) : Reader Schema :=
  tryCatch (do let _ ← readBase nodes attributes [kind] enclosing; return logical) fun stop =>
    match stop with
    | .error (.logicalOverWrongBase (.string base)) => readName base enclosing
    | stop => throw stop

def readDecimalNumber (key : String) (absent : Reader Nat) (attributes : Attributes) :
    Reader Nat :=
  match attributes.lookup key with
  | none => absent
  | some (.int n) => if 0 ≤ n then pure n.toNat else fail (.negativeInteger n)
  | some (.double x) => fail (.notInteger (.double x))
  | some found => fail (.notNumber key found)

/-- A decimal over bytes or a fixed. -/
def readDecimal (nodes : List (String × Node)) (attributes : Attributes) (enclosing : Namespace) :
    Reader Schema := do
  let base ← readBase nodes attributes [.fixed, .bytes] enclosing
  let precision ← readDecimalNumber "precision" (fail .precisionMissing) attributes
  let scale ← readDecimalNumber "scale" (pure 0) attributes
  if precision = 0 then fail (.zeroPrecision precision)
  if precision < scale then fail (.precisionBelowScale precision scale)
  match base with
  | .fixed name size => return .decimal (.fixed name size) precision scale
  | _ => return .decimal .bytes precision scale

/-- The schema of a known logical type; an unknown one says nothing. -/
def readLogical (logical : String) (nodes : List (String × Node)) (attributes : Attributes)
    (enclosing : Namespace) : Option (Reader Schema) :=
  let overInt (t : IntTime) := readTime nodes attributes .int (.intTime t) enclosing
  let overLong (t : LongTime) := readTime nodes attributes .long (.longTime t) enclosing
  match logical with
  | "decimal" => some (readDecimal nodes attributes enclosing)
  | "uuid" => some do
    let _ ← readBase nodes attributes [.string] enclosing
    return .uuid
  | "duration" => some do
    let _ ← readBase nodes attributes [.fixed] enclosing
    return .duration
  | "date" => some (overInt .date)
  | "time-millis" => some (overInt .timeMillis)
  | "time-micros" => some (overLong .timeMicros)
  | "timestamp-millis" => some (overLong .timestampMillis)
  | "timestamp-micros" => some (overLong .timestampMicros)
  | "local-timestamp-millis" => some (overLong .localTimestampMillis)
  | "local-timestamp-micros" => some (overLong .localTimestampMicros)
  | _ => none

/-! ## Any schema -/

/-- A schema object by its `type`; a nested object stands for itself. -/
def readForm (nodes : List (String × Node)) (attributes : Attributes) (enclosing : Namespace) :
    Reader Schema := do
  let node ← orFail (.missing .type) (nodes.lookup "type")
  match node.json with
  | .string "record" => readRecord nodes attributes enclosing
  | .string "enum" => readEnum attributes enclosing
  | .string "array" =>
    let items ← orFail (.missing .items) (nodes.lookup "items")
    return .array (← items.read enclosing)
  | .string "map" =>
    let values ← orFail (.missing .values) (nodes.lookup "values")
    return .map (← values.read enclosing)
  | .string "fixed" => readFixed attributes enclosing
  | .string other => readName other enclosing
  | .object _ => node.read enclosing
  | .array _ => node.read enclosing
  | found => fail (.invalidType found)

/-- A schema object; a logical type comes before the form. -/
def readObject (nodes : List (String × Node)) (attributes : Attributes) (enclosing : Namespace) :
    Reader Schema :=
  match attributes.lookup "logicalType" with
  | some (.string logical) =>
    (readLogical logical nodes attributes enclosing).getD (readForm nodes attributes enclosing)
  | some _ => fail .logicalNotText
  | none => readForm nodes attributes enclosing

mutual

/-- The way a JSON value is read as a schema. -/
def read : Json → Namespace → Reader Schema
  | .string s, enclosing => readName s enclosing
  | .object members, enclosing => readObject (memberNodes members) members enclosing
  | .array items, enclosing => readUnion (itemReads items) enclosing
  | _, _ => fail .notSchema

def memberNodes : List (String × Json) → List (String × Node)
  | [] => []
  | (k, j) :: rest => (k, ⟨j, fun enclosing => read j enclosing, partsOf j⟩) :: memberNodes rest

/-- The items of an array, none for any other value. -/
def partsOf : Json → List (Json × (Namespace → Reader Schema))
  | .array items => itemReads items
  | _ => []

def itemReads : List Json → List (Json × (Namespace → Reader Schema))
  | [] => []
  | j :: rest => (j, fun enclosing => read j enclosing) :: itemReads rest

end

def parse (text : String) : Outcome SchemaError Schema :=
  match Json.parse text with
  | none => .fail .syntaxError
  | some json => ((read json none).run Registry.empty).1

end Schema
end RecordTape

import RecordTape.Schema.Canonical
import RecordTape.Value.Resolve
/-!
# Validation

A last look at a value before it is encoded: its form, and the sizes and positions in it, must be
those of the schema. The fields of a record are looked up by name and by alias, and the latest field
to claim a name has it, so a field is held against the schema of another one that bears its name as
an alias. All that is found wrong is reported, in order.
-/

namespace RecordTape

inductive Issue where
  | unsupported
  | fixedSize (length size : Nat)
  | bytesSize (length size : Nat)
  | durationSize (length : Nat)
  | notSymbol (symbol : String)
  | symbolElsewhere (symbol : String) (index : Nat)
  | noSymbol (index : Nat)
  | noBranchAt (index : Nat)
  | noBranch
  | tooFewFields (length required : Nat)
  | tooManyFields (length declared : Nat)
  | unknownField (name : String)
  | missingField (name : String)
  | unresolved (name : Name)
deriving DecidableEq, Repr

namespace Issue

def message : Issue → String
  | unsupported => "Unsupported value-schema combination"
  | fixedSize length size =>
    "The value's size (" ++ toString length ++ ") is different than the schema's size (" ++
      toString size ++ ")"
  | bytesSize length size =>
    "The bytes' length (" ++ toString length ++ ") is different than the schema's size (" ++
      toString size ++ ")"
  | durationSize length =>
    "The value's size ('" ++ toString length ++ "') must be exactly 12 to be a Duration"
  | notSymbol s => "'" ++ s ++ "' is not a member of the possible symbols"
  | symbolElsewhere s i => "Symbol '" ++ s ++ "' is not at position '" ++ toString i ++ "'"
  | noSymbol i => "No symbol at position '" ++ toString i ++ "'"
  | noBranchAt i => "No schema in the union at position '" ++ toString i ++ "'"
  | noBranch => "Could not find matching type in union"
  | tooFewFields length required =>
    "The value's records length (" ++ toString length ++ ") doesn't match the schema (" ++
      toString required ++ " non-nullable fields)"
  | tooManyFields length declared =>
    "The value's records length (" ++ toString length ++ ") is greater than the schema's (" ++
      toString declared ++ " fields)"
  | unknownField name => "There is no schema field for field '" ++ name ++ "'"
  | missingField name =>
    "Field with name '" ++ Text.quoted name ++ "' is not a member of the map items"
  | unresolved name => "Unresolved schema reference: '" ++ name.full ++ "'"

end Issue

/-- What is wrong with a value under a schema that stands in a namespace, with the named schemas
given. -/
abbrev Check := Names → Namespace → Schema → Except Fault (List Issue)

namespace Field

/-- The field may hold null as one of several types. Branches are told apart by their canonical
forms, so a reference to a definition named `null` counts as null. -/
def isNullable (f : Field Schema) : Bool :=
  match f.schema with
  | .union branches => branches.any fun branch => branch.canonicalText = Schema.null.canonicalText
  | _ => false

/-- The fields by name and alias; a later claim of a name comes before an earlier one. -/
def directory (fields : List (Field Schema)) : List (String × Field Schema) :=
  (fields.flatMap fun f => (f.name, f) :: f.aliases.map (·, f)).reverse

end Field

namespace Value

/-- A condition and the issue reported when it does not hold. -/
def issueUnless (holds : Bool) (i : Issue) : Except Fault (List Issue) :=
  pure (if holds then [] else [i])

/-- A value without parts under a schema that is no union and no reference. -/
def leafIssues (s : Schema) (v : Value) : Except Fault (List Issue) :=
  match s, v with
  | .null, .null | .boolean, .boolean _ | .int, .int _ | .long, .int _ | .long, .long _
  | .float, .float _ | .double, .float _ | .double, .double _ | .bytes, .bytes _
  | .string, .string _ | .uuid, .string _ | .uuid, .uuid _ | .duration, .duration _
  | .intTime _, .int _ | .longTime _, .long _
  | .decimal .., .bytes _ | .decimal .., .fixed _ | .decimal .., .decimal _ => pure []
  | .intTime t, .intTime u _ => issueUnless (t = u) .unsupported
  | .longTime t, .longTime u _ => issueUnless (t = u) .unsupported
  | .fixed _ size, .fixed b => issueUnless (b.length = size) (.fixedSize b.length size)
  | .fixed _ size, .bytes b => issueUnless (b.length = size) (.bytesSize b.length size)
  | .duration, .fixed b => issueUnless (b.length = 12) (.durationSize b.length)
  | .enum _ symbols _, .string t => issueUnless (symbols.contains t) (.notSymbol t)
  | .enum _ symbols default, .enum i t =>
    match symbols[i]? with
    | some s => issueUnless (s = t) (.symbolElsewhere t i)
    | none => issueUnless default.isSome (.noSymbol i)
  | _, _ => pure [.unsupported]

def fieldIssues (names : Names) (ns : Namespace) (fields : List (Field Schema))
    (entries : List (String × Check)) : Except Fault (List Issue) := do
  let required := (fields.filter fun f => !f.isNullable).length
  if entries.length < required then return [.tooFewFields entries.length required]
  else if fields.length < entries.length then
    return [.tooManyFields entries.length fields.length]
  else
    let directory := Field.directory fields
    return (← entries.mapM fun (name, check) =>
      match directory.lookup name with
      | some field => check names ns field.schema
      | none => pure [.unknownField name]).flatten

def entryIssues (names : Names) (ns : Namespace) (fields : List (Field Schema))
    (entries : List (String × Check)) : Except Fault (List Issue) := do
  return (← fields.mapM fun field =>
    match entries.lookup field.name with
    | some check => check names ns field.schema
    | none => issueUnless field.isNullable (.missingField field.name)).flatten

/-- A check that looks a reference up before it meets the schema. `inUnion` is the check of a value
that is no union itself under a union. -/
def checkThrough (inUnion direct : Check) : Check := fun names ns s =>
  match s with
  | .ref name =>
    let full := name.qualify ns
    match names.find? full with
    | none => pure [.unresolved full]
    | some (.union branches) => inUnion names full.ns (.union branches)
    | some target => direct names full.ns target
  | .union branches => inUnion names ns (.union branches)
  | s => direct names ns s

/-- The check of a value under a union: some branch must take it. -/
def searchIssues (fallback : Fallback) (v : Value) : Check := fun names ns s =>
  match s with
  | .union branches =>
    match chooseBranch v.kind (v.plain fallback) names ns branches with
    | .ok _ => pure []
    | .error (.error _) => pure [.noBranch]
    | .error (.fault f) => .error f
  | _ => pure [.unsupported]

mutual

def issues (fallback : Fallback) : Value → Check
  | .union i v => fun names ns s =>
    let inUnion : Check := fun names ns s =>
      match s with
      | .union branches =>
        match branches[i]? with
        | some branch => issues fallback v names ns branch
        | none => pure [.noBranchAt i]
      | _ => pure [.unsupported]
    checkThrough inUnion inUnion names ns s
  | .array items => fun names ns s =>
    checkThrough (searchIssues fallback (.array items)) (fun names ns s =>
      match s with
      | .array schema => do
        return (← (checks fallback items).mapM fun check => check names ns schema).flatten
      | _ => pure [.unsupported]) names ns s
  | .map entries => fun names ns s =>
    checkThrough (searchIssues fallback (.map entries)) (fun names ns s =>
      match s with
      | .map schema => do
        return (← (entryChecks fallback entries).mapM fun (_, check) =>
          check names ns schema).flatten
      | .record _ fields => entryIssues names ns fields (entryChecks fallback entries)
      | _ => pure [.unsupported]) names ns s
  | .record entries => fun names ns s =>
    checkThrough (searchIssues fallback (.record entries)) (fun names ns s =>
      match s with
      | .record name fields =>
        fieldIssues names (name.ns <|> ns) fields (entryChecks fallback entries)
      | _ => pure [.unsupported]) names ns s
  | v => checkThrough (searchIssues fallback v) fun _ _ s => leafIssues s v

def checks (fallback : Fallback) : List Value → List Check
  | [] => []
  | v :: rest => (fun names ns s => issues fallback v names ns s) :: checks fallback rest

def entryChecks (fallback : Fallback) : List (String × Value) → List (String × Check)
  | [] => []
  | (k, v) :: rest =>
    (k, fun names ns s => issues fallback v names ns s) :: entryChecks fallback rest

end

end Value
end RecordTape

import RecordTape.Schema.Binding
import RecordTape.Value.Basic
import RecordTape.Value.Decimal
/-!
# Resolving values against schemas

Gives a value the form a schema asks for, or says why it has none: maps become records, longs are
cut down to ints, strings become enumeration symbols, identifiers and fixed bytes, a value finds its
branch of a union, and a missing field of a record takes its default.

The recursion is on the value. Each value is given its `Fitting`, a function of the schema it is
to meet, so that the parts of a value are at hand when the schema says how to use them. Defaults do
not belong to the value: a `Fallback` says what a missing field is, and `Fallback.ofDepth` allows
defaults within defaults up to a depth. `resolve` takes a depth that no default which ends exceeds.

The entries of a map are resolved in the order in which the value lists them, and those of a default
in the order of the schema's text: the order decides at which of several entries resolution stops.
-/

namespace RecordTape

/-- How a value meets a schema that stands in a namespace, with the named schemas given. -/
abbrev Fitting := Names → Namespace → Schema → Outcome Mismatch Value

/-- What a field becomes that a record does not have. -/
abbrev Fallback := Names → Namespace → Field Schema → Outcome Mismatch Value

namespace Value

/-! ## Values without parts -/

/-- The mismatch of a kind of value with a schema that takes no such value. -/
def mismatch (got : Kind) : Schema → Mismatch
  | .array items => .array items.kind got
  | .map values => .map values.kind got
  | .record _ fields => .record (fields.map fun f => (f.name, f.schema.kind)) got
  | .fixed .. => .fixed got
  | .uuid => .uuid got
  | .ref name => .unresolved name
  | .union _ => .noBranch
  | s => .kind s.kind got

/-- The symbol of an enumeration, its default for a symbol it does not have. -/
def resolveSymbol (symbols : List String) (default : Option String) (s : String) :
    Outcome Mismatch Value :=
  match symbols.idxOf? s with
  | some i => pure (.enum i s)
  | none =>
    match default.bind fun d => (symbols.idxOf? d).map (·, d) with
    | some (i, d) => pure (.enum i d)
    | none => .fail (.symbol s symbols)

def resolveText (b : Bytes) : Outcome Mismatch Value :=
  match Bytes.toText? b with
  | some s => pure (.string s)
  | none => .fail .utf8

def resolveDecimal (base : DecimalBase) (precision : Nat) (b : Bytes) :
    Outcome Mismatch Value := do
  Decimal.checkBase precision base
  Decimal.checkLength precision b
  return .decimal b

/-- A value without parts that this module reads, against a schema without branches or a name to
look up. -/
def resolveLeaf (v : Value) (s : Schema) : Outcome Mismatch Value :=
  match s, v with
  | .null, .null => pure .null
  | .boolean, .boolean b => pure (.boolean b)
  | .int, .int n => pure (.int n)
  | .int, .long n => pure (.int n.toInt32)
  | .long, .int n => pure (.long n.toInt64)
  | .long, .long n => pure (.long n)
  | .float, .int n => pure (.float (Binary.ofInt n.toInt))
  | .float, .long n => pure (.float (Binary.ofInt n.toInt))
  | .float, .float x => pure (.float x)
  | .float, .double x => pure (.float (x.convert _))
  | .double, .int n => pure (.double (Binary.ofInt n.toInt))
  | .double, .long n => pure (.double (Binary.ofInt n.toInt))
  | .double, .float x => pure (.double (x.convert _))
  | .double, .double x => pure (.double x)
  | .bytes, .bytes b => pure (.bytes b)
  | .bytes, .string t => pure (.bytes (Bytes.ofText t))
  | .string, .string t => pure (.string t)
  | .string, .bytes b => resolveText b
  | .string, .fixed b => resolveText b
  | .fixed _ size, .fixed b =>
    if b.length = size then pure (.fixed b) else .fail (.fixedSize size b.length)
  | .fixed .., .string t => pure (.fixed (Bytes.ofText t))
  | .enum _ symbols default, .enum _ t => resolveSymbol symbols default t
  | .enum _ symbols default, .string t => resolveSymbol symbols default t
  | .decimal base precision _, .decimal b => resolveDecimal base precision b
  | .decimal base precision _, .bytes b => resolveDecimal base precision b
  | .decimal base precision _, .fixed b => resolveDecimal base precision b
  | .decimal base precision _, v => do
    Decimal.checkBase precision base
    .fail (.kind .decimal v.kind)
  | .uuid, .uuid u => pure (.uuid u)
  | .uuid, .string t =>
    match Uuid.parse t with
    | some u => pure (.uuid u)
    | none => .fail .uuidText
  | .intTime t, .int n => pure (.intTime t n)
  | .intTime t, .intTime u n => if t = u then pure (.intTime t n) else .fail (mismatch v.kind s)
  | .longTime t, .int n => pure (.longTime t n.toInt64)
  | .longTime t, .long n => pure (.longTime t n)
  | .longTime t, .longTime u n => if t = u then pure (.longTime t n) else .fail (mismatch v.kind s)
  | .duration, .duration b => pure (.duration b)
  | .duration, .fixed b =>
    if b.length = 12 then pure (.duration b) else .fail (.durationSize b.length)
  | s, v => .fail (mismatch v.kind s)

/-! ## References and unions -/

/-- A value against a schema that is no union. `plain n` is the value with up to `n` options around
it taken off; one is taken off where a schema is met, and one more behind a reference. -/
def meetDirect (plain : Nat → Fitting) (layers : Nat) : Fitting := fun names ns s =>
  match s with
  | .ref name =>
    let full := name.qualify ns
    match names.find? full with
    | some target => plain (layers + 2) names full.ns target
    | none => .fail (.unresolved full)
  | s => plain (layers + 1) names ns s

/-- The first branch that a value meets, searching from position `index`. The names of each branch
tried are known to the branches after it. -/
def searchBranch (plain : Nat → Fitting) (ns : Namespace) :
    (names : Names) → (index : Nat) → List Schema → Outcome Mismatch (Nat × Schema)
  | _, _, [] => .fail .noBranch
  | names, i, branch :: rest =>
    match branch.bind names ns [] with
    | .error _ => .crash .unboundBranch
    | .ok found =>
      let names := found ++ names
      match meetDirect plain 1 names (branch.ns <|> ns) branch with
      | .ok _ => pure (i, branch)
      | .error (.fault f) => .crash f
      | .error (.error _) => searchBranch plain ns names (i + 1) rest

/-- The branch of a union for a value: the unnamed branch of the value's own kind, or else the first
that the value meets. -/
def chooseBranch (kind : Kind) (plain : Nat → Fitting) (names : Names) (ns : Namespace)
    (branches : List Schema) : Outcome Mismatch (Nat × Schema) :=
  match branches.zipIdx.find? (fun (b, _) => b.kind = kind ∧ !b.kind.isNamed) with
  | some (branch, i) => pure (i, branch)
  | none => searchBranch plain ns names 0 branches

/-- A value whose content is of this kind against any schema. -/
def meet (kind : Kind) (plain : Nat → Fitting) : Fitting := fun names ns s =>
  match s with
  | .union branches => do
    let (i, branch) ← chooseBranch kind plain names ns branches
    return .union i (← meetDirect plain 1 names ns branch)
  | s => meetDirect plain 0 names ns s

/-! ## Values with parts -/

def toByte : Value → Outcome Mismatch UInt8
  | .int n => if 0 ≤ n.toInt ∧ n.toInt < 256 then pure (UInt8.ofNat n.toInt.toNat) else .fail .byte
  | v => .fail (.kind .int v.kind)

/-- Items as bytes: each is resolved as an int first. -/
def resolveBytes (items : List Fitting) : Outcome Mismatch Value := do
  return .bytes (← items.mapM fun item => do toByte (← item [] none .int))

def resolveItems (names : Names) (ns : Namespace) (s : Schema) (items : List Fitting) :
    Outcome Mismatch Value := do
  return .array (← items.mapM fun item => item names ns s)

def resolveEntries (names : Names) (ns : Namespace) (s : Schema)
    (entries : List (String × Fitting)) : Outcome Mismatch Value := do
  return .map (← entries.mapM fun (k, entry) => do return (k, ← entry names ns s))

/-- The fields of a record in the order of its schema. -/
def resolveFields (fallback : Fallback) (names : Names) (ns : Namespace)
    (fields : List (Field Schema)) (entries : List (String × Fitting)) :
    Outcome Mismatch Value := do
  return .record (← fields.mapM fun field => do
    match entries.lookup field.name with
    | some entry => return (field.name, ← entry names ns field.schema)
    | none => return (field.name, ← fallback names ns field))

mutual

/-- A value against a schema that is neither a union nor a reference, with up to `layers` options
around it taken off. -/
def plain (fallback : Fallback) : Value → (layers : Nat) → Fitting
  | .union _ v, layers + 1, names, ns, s => plain fallback v layers names ns s
  | .array items, _, names, ns, s =>
    match s with
    | .array schema => resolveItems names ns schema (fittings fallback items)
    | .bytes => resolveBytes (fittings fallback items)
    | s => resolveLeaf (.array items) s
  | .map entries, _, names, ns, s =>
    match s with
    | .map schema => resolveEntries names ns schema (entryFittings fallback entries)
    | .record _ fields => resolveFields fallback names ns fields (entryFittings fallback entries)
    | s => resolveLeaf (.map entries) s
  | .record entries, _, names, ns, s =>
    match s with
    | .record _ fields =>
      resolveFields fallback names ns fields (entryFittings fallback entries).reverse
    | s => resolveLeaf (.record entries) s
  | v, _, _, _, s => resolveLeaf v s

def fittings (fallback : Fallback) : List Value → List Fitting
  | [] => []
  | v :: rest =>
    meet v.content.kind (fun layers => plain fallback v layers) :: fittings fallback rest

/-- The fittings of entries or fields; the last field of a name counts in a record. -/
def entryFittings (fallback : Fallback) : List (String × Value) → List (String × Fitting)
  | [] => []
  | (k, v) :: rest =>
    (k, meet v.content.kind (fun layers => plain fallback v layers)) :: entryFittings fallback rest

end

def fit (fallback : Fallback) (v : Value) : Fitting :=
  meet v.content.kind (plain fallback v)

end Value

/-! ## Defaults -/

namespace Fallback

/-- A missing field becomes its default. The default of a union belongs to its first branch,
whatever branch it would find by itself; what it becomes there meets the union once more. -/
def ofFallback (inner : Fallback) : Fallback := fun names ns field =>
  match field.default with
  | none => .fail (.missingField field.name)
  | some json => do
    let v := Value.ofJson json
    let v ← match field.schema with
      | .enum _ symbols default => (match v with
        | .string s => Value.resolveSymbol symbols default s
        | v => .fail (.kind .enum v.kind))
      | .union [] => .crash .emptyUnion
      | .union (.null :: _) => pure (.union 0 .null)
      | .union (first :: _) => Value.union 0 <$> v.fit inner names ns first
      | _ => pure v
    v.fit inner names ns field.schema

/-- Defaults within defaults, at most `depth` deep. -/
def ofDepth : (depth : Nat) → Fallback
  | 0 => fun _ _ _ => .crash .endlessDefault
  | depth + 1 => ofFallback (ofDepth depth)

end Fallback

namespace Schema

mutual

def defaultCount : Schema → Nat
  | array items => defaultCount items
  | map values => defaultCount values
  | union branches => branchDefaultCount branches
  | record _ fields => fieldDefaultCount fields
  | _ => 0

/-- The number of fields with a default in the branches of a union. -/
def branchDefaultCount : List Schema → Nat
  | [] => 0
  | s :: rest => defaultCount s + branchDefaultCount rest

def fieldDefaultCount : List (Field Schema) → Nat
  | [] => 0
  | ⟨_, _, default, s⟩ :: rest =>
    (if default.isSome then 1 else 0) + defaultCount s + fieldDefaultCount rest

end

end Schema

namespace Value

/-- A depth that only a default which contains itself exceeds: what a default becomes depends on
its field and the namespace it stands in alone, so a longer chain of defaults repeats a pair of
them. Namespaces come from the names, the schema and the outside. -/
def defaultDepth (names : Names) (s : Schema) : Nat :=
  let fields := s.defaultCount + names.total Schema.defaultCount
  fields * (names.length + 2) + 1

/-- A value against a schema within a namespace, among named schemas. -/
def resolveWithin (names : Names) (ns : Namespace) (s : Schema) (v : Value) :
    Outcome Mismatch Value :=
  v.fit (Fallback.ofDepth (defaultDepth names s)) names ns s

end Value
end RecordTape

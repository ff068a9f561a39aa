import RecordTape.Schema.Binding
import RecordTape.Value.Basic
import RecordTape.Value.Decoder
/-!
# Reading the binary form

Reads one value under its schema and leaves the bytes after it. It takes what `Value.encode` writes,
and also collections in several blocks and blocks with their size. Where the bytes end, a boolean, a
union and the content of a text are read as null; anything else is an error there.
-/

namespace RecordTape

namespace Schema

mutual

/-- The depth of a schema, references not followed. -/
def depth : Schema → Nat
  | array items => depth items + 1
  | map values => depth values + 1
  | union branches => branchDepth branches + 1
  | record _ fields => fieldDepth fields + 1
  | _ => 1

def branchDepth : List Schema → Nat
  | [] => 0
  | s :: rest => max (depth s) (branchDepth rest)

def fieldDepth : List (Field Schema) → Nat
  | [] => 0
  | ⟨_, _, _, s⟩ :: rest => max (depth s) (fieldDepth rest)

end

end Schema

namespace Value

/-- A boolean, null where the bytes end. -/
def decodeBoolean : Decoder Value := do
  match ← Decoder.take? 1 with
  | some [0] => return .boolean false
  | some [1] => return .boolean true
  | some (b :: _) => Decoder.fail (.notBoolean b)
  | _ => return .null

/-- A symbol of an enumeration by its position. The position just behind the last one is a fault. -/
def decodeSymbol (symbols : List String) : Decoder Value := do
  let i := (← Decoder.int32).toInt
  if i < 0 ∨ (symbols.length : Int) < i then Decoder.fail (.outOfRange i)
  else
    match symbols[i.toNat]? with
    | some s => return .enum i.toNat s
    | none => Decoder.crash (.symbolBehind i.toNat)

def decodeUuid (greatest : Nat) : Decoder Value := do
  match ← Decoder.text? greatest with
  | none => Decoder.fail .notText
  | some t =>
    match Uuid.parse t with
    | some u => return .uuid u
    | none => Decoder.fail .notUuid

/-- An entry of a map, whose key may not be missing. -/
def decodeEntry (greatest : Nat) (value : Decoder Value) : Decoder (String × Value) := do
  match ← Decoder.text? greatest with
  | some k => return (k, ← value)
  | none => Decoder.fail .noKey

/-- Reads a value under a schema, at most `fuel` levels deep and with no length or count beyond
`greatest`. -/
def decodeUpTo (greatest : Nat) : (fuel : Nat) → Names → Namespace → Schema → Decoder Value
  | 0, _, _, _ => Decoder.crash .endlessValue
  | fuel + 1, names, ns, s =>
    match s with
    | .null => return .null
    | .boolean => decodeBoolean
    | .int => .int <$> Decoder.int32
    | .long => .long <$> Decoder.int64
    | .float => .float <$> Decoder.float _
    | .double => .double <$> Decoder.float _
    | .bytes => .bytes <$> Decoder.bytes greatest
    | .string => do
      match ← Decoder.text? greatest with
      | some t => return .string t
      | none => return .null
    | .array items =>
      .array <$> Decoder.collection greatest (decodeUpTo greatest fuel names ns items)
    | .map values =>
      ofEntries <$> Decoder.collection greatest
        (decodeEntry greatest (decodeUpTo greatest fuel names ns values))
    | .union branches => do
      match ← Decoder.integer? with
      | none => return .union 0 .null
      | some i =>
        match if i < 0 then none else branches[i.toNat]? with
        | some branch => .union i.toNat <$> decodeUpTo greatest fuel names ns branch
        | none => Decoder.fail (.outOfRange i)
    | .record name fields =>
      .record <$> fields.mapM fun field => do
        return (field.name, ← decodeUpTo greatest fuel names (name.qualify ns).ns field.schema)
    | .enum _ symbols _ => decodeSymbol symbols
    | .fixed _ size => .fixed <$> Decoder.take size
    | .decimal .bytes .. => .decimal <$> Decoder.bytes greatest
    | .decimal (.fixed _ size) .. => .decimal <$> Decoder.take size
    | .uuid => decodeUuid greatest
    | .intTime t => .intTime t <$> Decoder.int32
    | .longTime t => .longTime t <$> Decoder.int64
    | .duration => .duration <$> Decoder.take 12
    | .ref name => do
      let full := name.qualify ns
      match names.find? full with
      | some target => decodeUpTo greatest fuel names full.ns target
      | none => Decoder.fail (.names (.unresolved full))

/-- More levels than the binary form of any value has. Between two bytes lie records only, each
inside another, and none of them twice, since a record that holds itself without a union or a
collection in between has no value. -/
def decodeDepth (names : Names) (s : Schema) (b : Bytes) : Nat :=
  (b.length + 1) * (s.depth + names.total (·.depth + 1) + 1) + 1

def decode (greatest : Nat) (names : Names) (ns : Namespace) (s : Schema) : Decoder Value := do
  decodeUpTo greatest (decodeDepth names s (← get)) names ns s

/-- Reads a value under a schema that stands alone, from the front of bytes, with no length or count
beyond `greatest`. What is left of the bytes is the state of the result. -/
def decodeWithin (greatest : Nat) (s : Schema) (b : Bytes) :
    EStateM.Result (Stop DecodeError) Bytes Value :=
  match s.names with
  | .ok names => decode greatest names s.ns s b
  | .error e => .error (.error (.names e)) b

/-- Reads a value under a schema that stands alone, with the lengths and counts that are accepted
where nothing else is said. -/
def decodeDatum (s : Schema) (b : Bytes) : EStateM.Result (Stop DecodeError) Bytes Value :=
  decodeWithin Decoder.greatestLength s b

end Value
end RecordTape

import RecordTape.Value.Basic
import RecordTape.Value.Decimal
import RecordTape.Value.Inspect
import RecordTape.Value.Varint
/-!
# Binary form of values

Writes a value under its schema. Integers are variable-length, texts and bytes carry their length, a
union carries the position of its branch, an array or map is one block with its count and a zero
after it, and a record is its fields one after the other. The entries of a map are written in the
order in which the value lists them; which order that is when a datum is written, its `Arrangement`
says. Most values without parts are written alike under every schema, so a value of another form
than the schema's may go unnoticed. An `Emission` keeps the bytes written before a stop, because a
writer has them in its scratch even then.
-/

namespace RecordTape

/-- Why a value cannot be written under a schema. -/
inductive EncodeError where
  | unresolved (name : Name)
  /-- A value of this kind does not have the form of the schema. -/
  | form (value : Kind)
  | symbol (symbol : String)
  /-- A field of the schema that the record, shown as a table, does not have. -/
  | missingField (name table : String)
deriving DecidableEq, Repr

namespace EncodeError

/-- The kinds of schemas that a kind of value is said to be written under. -/
def formsOf : Kind → List Kind
  | .string => [.string, .enum]
  | .bytes => [.bytes, .fixed]
  | kind => [kind]

def message : EncodeError → String
  | unresolved name => "Unresolved schema reference: " ++ name.full
  | form value =>
    "Can only encode value type " ++ value.label ++ " as one of [" ++
      ", ".intercalate ((formsOf value).map Kind.label) ++ "]"
  | symbol s => "Enum symbol not found " ++ s
  | missingField name table =>
    "There is no entry for " ++ name ++ " in the lookup table: " ++ table ++ "."

end EncodeError

/-- Bytes written, and why writing stopped if it did. -/
structure Emission where
  bytes : Bytes
  stop : Option (Stop EncodeError)

namespace Emission

def done (b : Bytes) : Emission := ⟨b, none⟩

/-- An error before any byte. -/
def fail (e : EncodeError) : Emission := ⟨[], some (.error e)⟩

/-- A fault before any byte. -/
def crash (f : Fault) : Emission := ⟨[], some (.fault f)⟩

/-- One emission after another; nothing follows a stop. -/
def append (a b : Emission) : Emission :=
  match a.stop with
  | some _ => a
  | none => ⟨a.bytes ++ b.bytes, b.stop⟩

instance : Append Emission := ⟨append⟩

def concat : List Emission → Emission
  | [] => done []
  | e :: rest => e ++ concat rest

theorem append_of_stop {a : Emission} {s : Stop EncodeError} (h : a.stop = some s)
    (e : Emission) : a ++ e = a := by
  show append a e = a
  simp [append, h]

end Emission

/-- A value written under a schema that stands in a namespace, with the named schemas given. -/
abbrev Encoding := Names → Namespace → Schema → Emission

namespace Value

/-- Bytes with their length before them. -/
def withLength (b : Bytes) : Bytes := Varint.encode b.length ++ b

/-- The little-endian bytes of a floating-point number. -/
def floatBytes {f : FloatFormat} (x : Binary f) : Bytes :=
  Bytes.littleEndian (f.width / 8) x.bits.toNat

/-- The binary form of a value without parts. -/
def encodeLeaf (s : Schema) (v : Value) : Emission :=
  match v, s with
  | .null, _ => .done []
  | .boolean b, _ => .done [if b then 1 else 0]
  | .int n, _ | .intTime _ n, _ => .done (Varint.encode n.toInt)
  | .long n, _ | .longTime _ n, _ => .done (Varint.encode n.toInt)
  | .float x, _ => .done (floatBytes x)
  | .double x, _ => .done (floatBytes x)
  | .bytes b, .bytes => .done (withLength b)
  | .bytes b, .fixed .. => .done b
  | .string t, .string | .string t, .uuid => .done (withLength (Bytes.ofText t))
  | .string t, .enum _ symbols _ =>
    match symbols.idxOf? t with
    | some i => .done (Varint.encode i)
    | none => .fail (.symbol t)
  | .fixed b, _ => .done b
  | .enum i _, _ => .done (Varint.encode i)
  | .decimal b, .decimal .bytes .. => .done (withLength b)
  | .decimal b, .decimal (.fixed _ size) .. =>
    match Decimal.widen size b with
    | some wide => .done wide
    | none => .crash (.decimalTooWide size)
  | .uuid u, _ => .done (withLength (Bytes.ofText u.text))
  | .duration b, _ => .done b
  | v, _ => .fail (.form v.kind)

/-- The count of a block that is not empty. -/
def blockStart (count : Nat) : Bytes :=
  if count = 0 then [] else Varint.encode count

/-- The entry for a field: that of its name, or else that of its first alias that has one. -/
def entryOf {α : Type} (entries : List (String × α)) (field : Field Schema) : Option α :=
  (field.name :: field.aliases).findSome? fun name => entries.lookup name

/-- The fields of a record value as a table, each name once with its last value. -/
def tableOf (fields : List (String × Value)) : String :=
  inspectTable ((inspectEntries fields).foldl (fun table (k, v) => insertEntry k v table) [])

/-- The fields of a record in the order of its schema; `values` are those of the value, and
`entries` the same ready to be written. -/
def encodeFields (names : Names) (ns : Namespace) (values : List (String × Value))
    (entries : List (String × Encoding)) : List (Field Schema) → Emission
  | [] => .done []
  | field :: rest =>
    match entryOf entries field with
    | some encoding => encoding names ns field.schema ++ encodeFields names ns values entries rest
    | none => .fail (.missingField field.name (tableOf values))

/-- Looks a reference up before the value is written; the namespace stays as it is. -/
def encodeThrough (direct : Encoding) : Encoding := fun names ns s =>
  match s with
  | .ref name =>
    match names.find? (name.qualify ns) with
    | some target => direct names ns target
    | none => .fail (.unresolved (name.qualify ns))
  | s => direct names ns s

mutual

/-- The binary form of a value under a schema. -/
def encode : Value → Encoding
  | .union i v => encodeThrough fun names ns s =>
    match s with
    | .union branches =>
      match branches[i]? with
      | some branch => .done (Varint.encode i) ++ encode v names ns branch
      | none => .crash (.noBranchAt i)
    | _ => .fail (.form .union)
  | .array items => encodeThrough fun names ns s =>
    match s with
    | .array schema =>
      .done (blockStart items.length) ++
        .concat ((encodings items).map fun encoding => encoding names ns schema) ++ .done [0]
    | _ => .fail (.form .array)
  | .map entries => encodeThrough fun names ns s =>
    match s with
    | .map schema =>
      .done (blockStart entries.length) ++
        .concat ((entryEncodings entries).map fun (k, encoding) =>
          .done (withLength (Bytes.ofText k)) ++ encoding names ns schema) ++ .done [0]
    | _ => .fail (.form .map)
  | .record entries => encodeThrough fun names ns s =>
    match s with
    | .record name fields =>
      encodeFields names (name.qualify ns).ns entries (entryEncodings entries).reverse fields
    | _ => .fail (.form .record)
  | v => encodeThrough fun _ _ s => encodeLeaf s v

/-- The items of an array, each ready to be written. -/
def encodings : List Value → List Encoding
  | [] => []
  | v :: rest => (fun names ns s => encode v names ns s) :: encodings rest

/-- Entries or fields, each ready to be written. -/
def entryEncodings : List (String × Value) → List (String × Encoding)
  | [] => []
  | (k, v) :: rest => (k, fun names ns s => encode v names ns s) :: entryEncodings rest

end

end Value
end RecordTape

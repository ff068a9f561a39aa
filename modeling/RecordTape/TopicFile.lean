import RecordTape.Config
import RecordTape.Toml.Reader
/-!
# Configuration files

The tuning of a serializer and the description of a topic, read from TOML. Keys that mean nothing
are passed over, what is not given has its default, and a name and two schemas must be given. The
tuning may also be an array of its settings in order. A moment has no settings at all.
-/

namespace RecordTape

/-- A natural number, as which any other value is refused. -/
def Toml.Item.toNat? : Toml.Item → Option Nat
  | .integer n => if 0 ≤ n then some n.toNat else none
  | _ => none

def Toml.Item.toBool? : Toml.Item → Option Bool
  | .boolean b => some b
  | _ => none

def Toml.Item.toText? : Toml.Item → Option String
  | .string s => some s
  | _ => none

namespace SerializerConfig

/-- A setting, or its default where it is not given. -/
def setting {α : Type} (read : Toml.Item → Option α) (default : α) : Option Toml.Item → Option α
  | none => some default
  | some item => read item

def ofSettings (size capacity memoize : Option Toml.Item) : Option SerializerConfig := do
  return ⟨← setting Toml.Item.toNat? default.encoderBufferSize size,
    ← setting Toml.Item.toNat? default.initialKeyCapacity capacity,
    ← setting Toml.Item.toBool? default.memoizeKeys memoize⟩

def ofEntries (entries : Toml.Entries) : Option SerializerConfig :=
  ofSettings (entries.lookup "encoder_buffer_size") (entries.lookup "initial_key_capacity")
    (entries.lookup "memoize_keys")

def ofItem : Toml.Item → Option SerializerConfig
  | .table _ entries => ofEntries entries
  | .array items => ofSettings items[0]? items[1]? items[2]?
  | .tables latestFirst =>
    let items := latestFirst.reverse.map (Toml.Item.table .header)
    ofSettings items[0]? items[1]? items[2]?
  | .moment => some default
  | _ => none

def checked (c : SerializerConfig) : Except ConfigFailure SerializerConfig := do
  c.validate
  return c

def parse (text : String) : Except ConfigFailure SerializerConfig :=
  match (Toml.parse text).bind ofEntries with
  | none => .error .malformed
  | some c => c.checked

end SerializerConfig

namespace TopicConfig

def ofEntries (entries : Toml.Entries) : Option TopicConfig := do
  return ⟨← (← entries.lookup "name").toText?, ← (← entries.lookup "key_schema").toText?,
    ← (← entries.lookup "value_schema").toText?,
    ← SerializerConfig.setting SerializerConfig.ofItem .default (entries.lookup "serializer")⟩

def parse (text : String) : Except ConfigFailure TopicConfig :=
  match (Toml.parse text).bind ofEntries with
  | none => .error .malformed
  | some c => do
    c.serializer.validate
    return c

end TopicConfig

/-- Reads a configuration from a file, given its bytes or why they cannot be had. -/
def parseFile {α : Type} (parse : String → Except ConfigFailure α)
    (content : Except IoError Bytes) : Except TapeError α :=
  match content with
  | .error e => .error (.io e)
  | .ok bytes =>
    match Bytes.toText? bytes with
    | none => .error (.io .notText)
    | some text => (parse text).mapError .config

end RecordTape

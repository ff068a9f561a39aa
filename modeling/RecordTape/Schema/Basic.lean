import RecordTape.Json.Basic
import RecordTape.Schema.Name
/-!
# Schemas

The schemas that keys and values of a topic are written under: primitives, collections, named types,
logical types and references to named types. `Kind` is the outermost form of a schema, and of a
value once it meets a schema; two unnamed branches of a union never share one.
-/

namespace RecordTape

/-- Logical types held in 32-bit integers. -/
inductive IntTime where
  | date
  | timeMillis
deriving DecidableEq, Repr

/-- Logical types held in 64-bit integers. -/
inductive LongTime where
  | timeMicros
  | timestampMillis
  | timestampMicros
  | localTimestampMillis
  | localTimestampMicros
deriving DecidableEq, Repr

/-- What a decimal's bytes are stored in. -/
inductive DecimalBase where
  | bytes
  | fixed (name : Name) (size : Nat)
deriving DecidableEq

/-- A field of a record, with the schema type left open. -/
structure Field (σ : Type) where
  name : String
  aliases : List String
  default : Option Json
  schema : σ

inductive Schema where
  | null
  | boolean
  | int
  | long
  | float
  | double
  | bytes
  | string
  | array (items : Schema)
  | map (values : Schema)
  | union (branches : List Schema)
  | record (name : Name) (fields : List (Field Schema))
  | enum (name : Name) (symbols : List String) (default : Option String)
  | fixed (name : Name) (size : Nat)
  | decimal (base : DecimalBase) (precision scale : Nat)
  | uuid
  | intTime (t : IntTime)
  | longTime (t : LongTime)
  | duration
  | ref (name : Name)

/-- The outermost form of a schema or value. -/
inductive Kind where
  | null
  | boolean
  | int
  | long
  | float
  | double
  | bytes
  | string
  | array
  | map
  | union
  | record
  | enum
  | fixed
  | decimal
  | uuid
  | intTime (t : IntTime)
  | longTime (t : LongTime)
  | duration
  | ref
deriving DecidableEq, Repr

namespace Kind

def label : Kind → String
  | null => "Null"
  | boolean => "Boolean"
  | int => "Int"
  | long => "Long"
  | float => "Float"
  | double => "Double"
  | bytes => "Bytes"
  | string => "String"
  | array => "Array"
  | map => "Map"
  | union => "Union"
  | record => "Record"
  | enum => "Enum"
  | fixed => "Fixed"
  | decimal => "Decimal"
  | uuid => "Uuid"
  | intTime .date => "Date"
  | intTime .timeMillis => "TimeMillis"
  | longTime .timeMicros => "TimeMicros"
  | longTime .timestampMillis => "TimestampMillis"
  | longTime .timestampMicros => "TimestampMicros"
  | longTime .localTimestampMillis => "LocalTimestampMillis"
  | longTime .localTimestampMicros => "LocalTimestampMicros"
  | duration => "Duration"
  | ref => "Ref"

/-- Kinds of which a union may hold several, told apart by their names. -/
def isNamed : Kind → Bool
  | record | enum | fixed | ref => true
  | _ => false

end Kind

namespace Schema

def kind : Schema → Kind
  | null => .null
  | boolean => .boolean
  | int => .int
  | long => .long
  | float => .float
  | double => .double
  | bytes => .bytes
  | string => .string
  | array _ => .array
  | map _ => .map
  | union _ => .union
  | record .. => .record
  | enum .. => .enum
  | fixed .. => .fixed
  | decimal .. => .decimal
  | uuid => .uuid
  | intTime t => .intTime t
  | longTime t => .longTime t
  | duration => .duration
  | ref _ => .ref

/-- The namespace in the name of a named schema or reference. -/
def ns : Schema → Namespace
  | record name _ => name.ns
  | enum name .. => name.ns
  | fixed name _ => name.ns
  | ref name => name.ns
  | _ => none

end Schema

/-- Named schemas by their full names, the latest definition first. -/
abbrev Names := List (Name × Schema)

namespace Names

def find? (names : Names) (name : Name) : Option Schema := names.lookup name

def defines (names : Names) (name : Name) : Bool := (names.find? name).isSome

/-- The total of a measure over the schemas. -/
def total (measure : Schema → Nat) : Names → Nat
  | [] => 0
  | (_, s) :: rest => measure s + total measure rest

end Names
end RecordTape

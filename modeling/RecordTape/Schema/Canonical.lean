import RecordTape.Fault
import RecordTape.Schema.Basic
/-!
# Canonical forms

The text that tells schemas apart: full names, no spaces, no documentation, defaults or aliases, and
the attributes of an object in one fixed order. Two schemas are the same if their canonical forms
are. The canonical form of a number of `2^63` or more is a fault.
-/

namespace RecordTape

namespace IntTime

def logicalName : IntTime → String
  | date => "date"
  | timeMillis => "time-millis"

end IntTime

namespace LongTime

def logicalName : LongTime → String
  | timeMicros => "time-micros"
  | timestampMillis => "timestamp-millis"
  | timestampMicros => "timestamp-micros"
  | localTimestampMillis => "local-timestamp-millis"
  | localTimestampMicros => "local-timestamp-micros"

end LongTime

namespace Schema

/-- A text in quotes; names and symbols hold nothing that would need an escape. -/
def canonicalString (s : String) : String := "\"" ++ s ++ "\""

/-- An attribute of an object: its key and the text of its value. -/
abbrev Attribute := String × String

def canonicalObject (attributes : List Attribute) : String :=
  "\x7b" ++ ",".intercalate (attributes.map fun (k, v) => canonicalString k ++ ":" ++ v) ++ "\x7d"

def canonicalList (items : List String) : String :=
  "[" ++ ",".intercalate items ++ "]"

def canonicalFixed (name : String) (size : Nat) : String :=
  canonicalObject
    [("name", canonicalString name), ("type", canonicalString "fixed"), ("size", toString size)]

/-- A logical type that adds nothing to its base but its name. -/
def canonicalLogical (base logical : String) : String :=
  canonicalObject [("type", base), ("logicalType", canonicalString logical)]

mutual

def canonicalText : Schema → String
  | null => canonicalString "null"
  | boolean => canonicalString "boolean"
  | int => canonicalString "int"
  | long => canonicalString "long"
  | float => canonicalString "float"
  | double => canonicalString "double"
  | bytes => canonicalString "bytes"
  | string => canonicalString "string"
  | array items => canonicalObject
      [("type", canonicalString "array"), ("items", canonicalText items)]
  | map values => canonicalObject
      [("type", canonicalString "map"), ("values", canonicalText values)]
  | union branches => canonicalList (canonicalBranches branches)
  | record name fields => canonicalObject
      [("name", canonicalString name.full), ("type", canonicalString "record"),
        ("fields", canonicalList (canonicalFields fields))]
  | enum name symbols _ => canonicalObject
      [("name", canonicalString name.full), ("type", canonicalString "enum"),
        ("symbols", canonicalList (symbols.map canonicalString))]
  | fixed name size => canonicalFixed name.full size
  | decimal base precision scale => canonicalObject
      [("type", match base with
          | .bytes => canonicalString "bytes"
          | .fixed name size => canonicalFixed name.full size),
        ("logicalType", canonicalString "decimal"), ("precision", toString precision),
        ("scale", toString scale)]
  | uuid => canonicalLogical (canonicalString "string") "uuid"
  | intTime t => canonicalLogical (canonicalString "int") t.logicalName
  | longTime t => canonicalLogical (canonicalString "long") t.logicalName
  | duration => canonicalLogical (canonicalFixed "duration" 12) "duration"
  | ref name => canonicalString name.full

def canonicalBranches : List Schema → List String
  | [] => []
  | s :: rest => canonicalText s :: canonicalBranches rest

def canonicalFields : List (Field Schema) → List String
  | [] => []
  | ⟨name, _, _, schema⟩ :: rest =>
    canonicalObject [("name", canonicalString name), ("type", canonicalText schema)] ::
      canonicalFields rest

end

/-- The least number that a canonical form cannot hold. -/
def numberLimit : Nat := 0x8000000000000000

mutual

def numbers : Schema → List Nat
  | array items => numbers items
  | map values => numbers values
  | union branches => branchNumbers branches
  | record _ fields => fieldNumbers fields
  | fixed _ size => [size]
  | decimal base precision scale =>
    (match base with
      | .bytes => []
      | .fixed _ size => [size]) ++ [precision, scale]
  | _ => []

def branchNumbers : List Schema → List Nat
  | [] => []
  | s :: rest => numbers s ++ branchNumbers rest

def fieldNumbers : List (Field Schema) → List Nat
  | [] => []
  | ⟨_, _, _, schema⟩ :: rest => numbers schema ++ fieldNumbers rest

end

/-- The canonical form, or the fault of a number that is too great for it. -/
def canonical (s : Schema) : Except Fault String :=
  match s.numbers.find? (numberLimit ≤ ·) with
  | some n => .error (.oversizedNumber n)
  | none => .ok s.canonicalText

end Schema
end RecordTape

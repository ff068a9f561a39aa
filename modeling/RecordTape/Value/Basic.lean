import RecordTape.Bytes
import RecordTape.Uuid
import RecordTape.Schema.Basic
/-!
# Values

The values that data are turned into before they meet a schema, and the values a schema asks for
afterwards. Before, a value is made of the primitives, options and variants (`union`, `enum`),
sequences, maps and records; the remaining forms arise only by resolving against a schema.
-/

namespace RecordTape

/-- A value. The fields of a record keep their order. The entries of a map have each key once, and
no order of their own: the one in which they are listed here is that of one hash table. -/
inductive Value where
  | null
  | boolean (b : Bool)
  | int (n : Int32)
  | long (n : Int64)
  | float (x : Binary32)
  | double (x : Binary64)
  | bytes (b : Bytes)
  | string (s : String)
  | array (items : List Value)
  | map (entries : List (String × Value))
  | union (index : Nat) (v : Value)
  | record (fields : List (String × Value))
  | enum (index : Nat) (symbol : String)
  | fixed (b : Bytes)
  | decimal (b : Bytes)
  | uuid (u : Uuid)
  | intTime (t : IntTime) (n : Int32)
  | longTime (t : LongTime) (n : Int64)
  | duration (b : Bytes)

namespace Value

def kind : Value → Kind
  | null => .null
  | boolean _ => .boolean
  | int _ => .int
  | long _ => .long
  | float _ => .float
  | double _ => .double
  | bytes _ => .bytes
  | string _ => .string
  | array _ => .array
  | map _ => .map
  | union .. => .union
  | record _ => .record
  | enum .. => .enum
  | fixed _ => .fixed
  | decimal _ => .decimal
  | uuid _ => .uuid
  | intTime t _ => .intTime t
  | longTime t _ => .longTime t
  | duration _ => .duration

/-- The content of an option or variant, any other value itself. -/
def content : Value → Value
  | union _ v => v
  | v => v

/-- Puts an entry into a map, in the place of one of the same key. -/
def insertEntry {α : Type} (key : String) (value : α) : List (String × α) → List (String × α)
  | [] => [(key, value)]
  | (k, v) :: rest => if k = key then (k, value) :: rest else (k, v) :: insertEntry key value rest

/-- The map with these entries; of several with one key the last counts. -/
def ofEntries (entries : List (String × Value)) : Value :=
  .map (entries.foldl (fun m (k, v) => insertEntry k v m) [])

mutual

/-- The value of a JSON value where any integer is taken modulo `2^64`. -/
def ofJson : Json → Value
  | .null => .null
  | .bool b => .boolean b
  | .int n => .long (Int64.ofInt n)
  | .double x => .double x
  | .string s => .string s
  | .array items => .array (ofItems items)
  | .object members => .map (ofMembers members)

def ofItems : List Json → List Value
  | [] => []
  | j :: js => ofJson j :: ofItems js

def ofMembers : List (String × Json) → List (String × Value)
  | [] => []
  | (k, j) :: rest => (k, ofJson j) :: ofMembers rest

end

end Value
end RecordTape

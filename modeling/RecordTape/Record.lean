import RecordTape.Bytes
import RecordTape.Json.Reading
/-!
# Records

A record is a key and a value on their way to a tape. On the tape it is a header of eight zero
bytes, the key, and the value, with nothing in between. As a line of text a record is a JSON object
with the members `key` and `value`, or an array of the two.
-/

namespace RecordTape

structure Record (κ ν : Type) where
  key : κ
  value : ν

def headerLength : Nat := 8

def emptyHeader : Bytes := List.replicate headerLength 0

structure Stats where
  /-- Records written without an error. -/
  records : Nat
  /-- Calls that used the bytes of the key before. -/
  keyCacheHits : Nat
  /-- Calls that encoded their key. -/
  keyEncodings : Nat
  /-- Bytes that sinks accepted, in failed calls too. -/
  bytesWritten : Nat
deriving DecidableEq, Repr

namespace Stats

/-- Nothing counted yet. -/
def zero : Stats := ⟨0, 0, 0, 0⟩

end Stats

namespace Record

/-- The members of a record that have a name. Other members may hold anything. -/
def membersNamed (name : String) (members : List (String × Json.Text)) : List Json.Text :=
  members.filterMap fun (k, t) => if k = name then some t else none

/-- The depth left inside the outermost container of a line. -/
def innerDepth : Nat := Json.greatestDepth - 1

/-- The record of a well-formed text. Keys and values must be there exactly once. -/
def ofText? : Json.Text → Option (Record Json Json)
  | .array [key, value] => do
    return ⟨← key.toJson? innerDepth, ← value.toJson? innerDepth⟩
  | .object members => do
    let members ← members.mapM fun (units, t) => do return (← Json.textOfUnits units, t)
    match membersNamed "key" members, membersNamed "value" members with
    | [key], [value] => return ⟨← key.toJson? innerDepth, ← value.toJson? innerDepth⟩
    | _, _ => none
  | _ => none

/-- Reads a record from a line of text. -/
def parse (line : String) : Option (Record Json Json) :=
  (Json.Text.parse line).bind ofText?

end Record
end RecordTape

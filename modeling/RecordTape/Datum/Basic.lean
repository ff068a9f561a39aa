import RecordTape.Json.Basic
import RecordTape.Number.Bound
import RecordTape.Value.Arrangement
/-!
# Data

Keys and values of records before they meet a schema. A type of data says what value each datum
stands for and when two data are equal; equality decides whether the bytes of a key may be used
again. The data here are JSON values.
-/

namespace RecordTape

inductive DatumError where
  /-- An unsigned integer of `2^63` or more. -/
  | unsignedTooLarge
  /-- The key of a map is not a text. -/
  | keyNotText
  /-- The datum itself refuses. -/
  | refused (text : String)
deriving DecidableEq, Repr

namespace DatumError

def message (e : DatumError) : String :=
  "Failed to serialize value into Avro value: " ++
    match e with
    | unsignedTooLarge => "u64 is too large"
    | keyNotText => "map key is not a string"
    | refused text => text

end DatumError

/-- Types whose members can be keys and values of records. -/
class Datum (α : Type) where
  /-- The value a datum stands for. -/
  toValue : α → Except DatumError Value
  /-- Equality of data. -/
  same : α → α → Bool
  /-- The order of the maps that resolving the datum makes. -/
  arrangement : α → Arrangement

/-- A datum on one of the occasions it is used: the maps made of it, and those made of these by
resolving them, list their entries in orders that come up then. Equality has nothing to do with
them. -/
structure Arranged (α : Type) where
  datum : α
  given : Arrangement
  resolved : Arrangement

namespace Arranged

variable {α : Type} [Datum α]

instance : Datum (Arranged α) where
  toValue d := d.given.arrange <$> Datum.toValue d.datum
  same d e := Datum.same d.datum e.datum
  arrangement d := d.resolved

theorem toValue_eq (d : Arranged α) :
    Datum.toValue d = d.given.arrange <$> Datum.toValue d.datum := rfl

@[simp] theorem arrangement_eq (d : Arranged α) : Datum.arrangement d = d.resolved := rfl

end Arranged

namespace Json

mutual

def toValue : Json → Except DatumError Value
  | .null => .ok .null
  | .bool b => .ok (.boolean b)
  | .int n => if n < int64Bound then .ok (.long (Int64.ofInt n)) else .error .unsignedTooLarge
  | .double x => .ok (.double x)
  | .string s => .ok (.string s)
  | .array items => do return .array (← itemsToValues items)
  | .object members => do return .map (← membersToEntries members)

def itemsToValues : List Json → Except DatumError (List Value)
  | [] => .ok []
  | j :: js => do return (← toValue j) :: (← itemsToValues js)

def membersToEntries : List (String × Json) → Except DatumError (List (String × Value))
  | [] => .ok []
  | (k, j) :: rest => do return (k, ← toValue j) :: (← membersToEntries rest)

end

instance : Datum Json := ⟨toValue, same, fun _ => .listed⟩

@[simp] theorem arrangement_eq (j : Json) : Datum.arrangement j = .listed := rfl

end Json
end RecordTape

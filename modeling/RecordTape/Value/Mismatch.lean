import RecordTape.Text.Quoted
import RecordTape.Schema.Basic
/-!
# Mismatches

The ways in which a value can fail to meet a schema, and their messages.
-/

namespace RecordTape

/-- Why a value does not meet a schema. `got` is the kind of the value. -/
inductive Mismatch where
  | kind (expected got : Kind)
  | array (items got : Kind)
  | map (values got : Kind)
  | record (fields : List (String × Kind)) (got : Kind)
  | fixed (got : Kind)
  | fixedSize (size length : Nat)
  | durationSize (length : Nat)
  | uuid (got : Kind)
  /-- A text that is no identifier. -/
  | uuidText
  /-- Bytes that are no UTF-8 text. -/
  | utf8
  /-- An integer outside `0` to `255` where a byte is due. -/
  | byte
  | symbol (symbol : String) (symbols : List String)
  | missingField (name : String)
  | noBranch
  /-- The fixed below a decimal is too small for its precision. -/
  | decimalBase (size precision : Nat)
  /-- The bytes of a decimal are too few for its precision. -/
  | decimalLength (precision length : Nat)
  | lengthRange (length : Nat)
  | unresolved (name : Name)
deriving DecidableEq

namespace Mismatch

/-- A name and kind, as shown in the list of a record's fields. -/
def fieldText (field : String × Kind) : String :=
  "(" ++ Text.quoted field.1 ++ ", " ++ field.2.label ++ ")"

def message : Mismatch → String
  | kind expected got => expected.label ++ " expected, got " ++ got.label
  | array items got => "Array(" ++ items.label ++ ") expected, got " ++ got.label
  | map values got => "Map(" ++ values.label ++ ") expected, got " ++ got.label
  | record fields got =>
    "Record with fields [" ++ ", ".intercalate (fields.map fieldText) ++ "] expected, got " ++
      got.label
  | fixed got => "String expected for fixed, got " ++ got.label
  | fixedSize size length =>
    "Fixed size mismatch, " ++ toString size ++ " expected, got " ++ toString length
  | durationSize length =>
    "Fixed bytes of size 12 expected, got Fixed of size " ++ toString length
  | uuid got => "expected UUID, got: " ++ got.label
  | uuidText => "Failed to convert &str to UUID"
  | utf8 => "Invalid utf-8 string"
  | byte => "Unable to convert to u8, got Int"
  | symbol s symbols =>
    "Enum default " ++ Text.quoted s ++ " is not among allowed symbols " ++ Text.quotedList symbols
  | missingField name => "Missing field in record: " ++ Text.quoted name
  | noBranch => "Could not find matching type in union"
  | decimalBase size precision =>
    "Fixed type number of bytes " ++ toString size ++
      " is not large enough to hold decimal values of precision " ++ toString precision
  | decimalLength precision length =>
    "Precision " ++ toString precision ++ " too small to hold decimal values with " ++
      toString length ++ " bytes"
  | lengthRange length => "Cannot convert length to i32: " ++ toString length
  | unresolved name => "Unresolved schema reference: " ++ name.full

end Mismatch
end RecordTape

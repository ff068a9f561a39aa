import RecordTape.Json.Printer
import RecordTape.Schema.Basic
/-!
# Errors of schema texts

What a schema text can get wrong, and the messages.
-/

namespace RecordTape

inductive SchemaPart where
  | name
  | fieldName
  | fields
  | symbols
  | items
  | values
  | size
  | type
  | logicalBase

inductive SchemaError where
  /-- The text is no JSON. -/
  | syntaxError
  /-- A number, boolean or null where a schema is due. -/
  | notSchema
  | missing (part : SchemaPart)
  | unknownType (name : Name)
  | invalidName (text : String)
  | invalidNamespace (text : String)
  /-- The `type` attribute of an object is of no use. -/
  | invalidType (found : Json)
  /-- The `logicalType` attribute is no text. -/
  | logicalNotText
  /-- The base type does not carry the logical type. -/
  | logicalOverWrongBase (found : Json)
  | symbolsNotTexts
  | invalidSymbol (symbol : String)
  | duplicateSymbol (symbol : String)
  | symbolDefaultNotText (found : Json)
  | symbolDefaultUnknown (symbol : String) (symbols : List String)
  | sizeNotNatural (found : Json)
  | precisionMissing
  /-- A precision or scale that is no number. -/
  | notNumber (key : String) (found : Json)
  /-- A precision or scale that is no integer. -/
  | notInteger (found : Json)
  | negativeInteger (n : Int)
  | zeroPrecision (precision : Nat)
  | precisionBelowScale (precision scale : Nat)
  | nestedUnion
  | duplicateBranch
  | invalidFieldName (name : String)
  | duplicateFieldName (name : String)
  /-- A default does not meet the schema of its field, given in its canonical form. -/
  | fieldDefault (field record canonical : String)
  /-- A default meets no branch of a union. -/
  | unionDefault (first got : Kind)
  | emptyUnion

namespace SchemaError

/-- The form of a name, as shown in messages. -/
def namePattern : String :=
  "^((?P<namespace>([A-Za-z_][A-Za-z0-9_\\.]*)*)\\.)?(?P<name>[A-Za-z_][A-Za-z0-9_]*)$"

/-- The form of a namespace, as shown in messages. -/
def namespacePattern : String :=
  "^([A-Za-z_][A-Za-z0-9_]*(\\.[A-Za-z_][A-Za-z0-9_]*)*)?$"

def missingMessage : SchemaPart → String
  | .name => "No `name` field"
  | .fieldName => "No `name` in record field"
  | .fields => "No `fields` in record"
  | .symbols => "No `symbols` field in enum"
  | .items => "No `items` in array"
  | .values => "No `values` in map"
  | .size => "Fixed schema has no `size`"
  | .type => "No `type` in complex type"
  | .logicalBase => "No `type` field found for `logicalType`"

def message : SchemaError → String
  | syntaxError => "Failed to parse schema from JSON"
  | notSchema => "Must be a JSON string, object or array"
  | missing part => missingMessage part
  | unknownType name => "Unknown primitive type: " ++ name.full
  | invalidName text =>
    "Invalid schema name " ++ text ++ ". It must match the regex '" ++ namePattern ++ "'"
  | invalidNamespace text =>
    "Invalid namespace " ++ text ++ ". It must match the regex '" ++ namespacePattern ++ "'"
  | invalidType found => "Unknown complex type: " ++ found.compact
  | logicalNotText => "logicalType must be a string"
  | logicalOverWrongBase found =>
    "Unexpected `type` " ++ found.compact ++ " variant for `logicalType`"
  | symbolsNotTexts => "Unable to parse `symbols` in enum"
  | invalidSymbol s => "Invalid enum symbol name " ++ s
  | duplicateSymbol s => "Duplicate enum symbol " ++ s
  | symbolDefaultNotText found =>
    "Default value for enum must be a string! Got: " ++ found.compact
  | symbolDefaultUnknown s symbols =>
    "Enum default " ++ Text.quoted s ++ " is not among allowed symbols " ++ Text.quotedList symbols
  | sizeNotNatural found =>
    "Fixed schema `size` value must be a positive integer: " ++ found.compact
  | precisionMissing => "Key precision not found in decimal metadata JSON"
  | notNumber key found => "invalid JSON for " ++ Text.quoted key ++ ": " ++ found.inspect
  | notInteger found =>
    "Invalid JSON value for decimal precision/scale integer: " ++ found.compact
  | negativeInteger n => "Cannot convert i64 to usize: " ++ toString n
  | zeroPrecision precision =>
    "The decimal precision (" ++ toString precision ++ ") must be a positive number"
  | precisionBelowScale precision scale =>
    "The decimal precision (" ++ toString precision ++ ") must be bigger or equal to the scale (" ++
      toString scale ++ ")"
  | nestedUnion => "Unions may not directly contain a union"
  | duplicateBranch => "Unions cannot contain duplicate types"
  | invalidFieldName name => "Invalid field name " ++ name
  | duplicateFieldName name => "Duplicate field name " ++ name
  | fieldDefault field record canonical =>
    "`default`'s value type of field " ++ Text.quoted field ++ " in " ++ Text.quoted record ++
      " must be " ++ Text.quoted canonical
  | unionDefault first got =>
    "One union type " ++ first.label ++ " must match the `default`'s value type " ++ got.label
  | emptyUnion => "Union type should not be empty"

end SchemaError
end RecordTape

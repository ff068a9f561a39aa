import RecordTape.Json.Basic
import RecordTape.Number.Shortest
import RecordTape.Text.Quoted
/-!
# Printing JSON

Two texts of a JSON value: `compact` is JSON itself without spaces, `inspect` names the kind of each
value and is used where a message has to show what was found.
-/

namespace RecordTape.Json

/-- Doubles are positional from `1e-5` up to `1e16`, with a signed exponent outside. -/
def doubleStyle : DecimalStyle := ⟨-4, 16, true⟩

/-- The form of one character inside a JSON string: the short escapes, `\u` for other controls. -/
def compactChar (c : Char) : String :=
  match c with
  | '"' => "\\\""
  | '\\' => "\\\\"
  | '\x08' => "\\b"
  | '\x0c' => "\\f"
  | '\n' => "\\n"
  | '\r' => "\\r"
  | '\t' => "\\t"
  | _ =>
    if c.toNat < 0x20 then
      String.ofList ['\\', 'u', '0', '0', Hex.digit (c.toNat / 16), Hex.digit (c.toNat % 16)]
    else String.singleton c

def compactString (s : String) : String :=
  "\"" ++ String.join (s.toList.map compactChar) ++ "\""

mutual

/-- The JSON text of a value, without spaces. -/
def compact : Json → String
  | .null => "null"
  | .bool b => if b then "true" else "false"
  | .int n => toString n
  | .double x => doubleStyle.text x
  | .string s => compactString s
  | .array items => "[" ++ ",".intercalate (compactItems items) ++ "]"
  | .object members => "\x7b" ++ ",".intercalate (compactMembers members) ++ "\x7d"

def compactItems : List Json → List String
  | [] => []
  | j :: js => compact j :: compactItems js

def compactMembers : List (String × Json) → List String
  | [] => []
  | (k, j) :: rest => (compactString k ++ ":" ++ compact j) :: compactMembers rest

end

mutual

/-- The text of a value with the name of its kind. -/
def inspect : Json → String
  | .null => "Null"
  | .bool b => if b then "Bool(true)" else "Bool(false)"
  | .int n => "Number(" ++ toString n ++ ")"
  | .double x => "Number(" ++ doubleStyle.text x ++ ")"
  | .string s => "String(" ++ Text.quoted s ++ ")"
  | .array items => "Array [" ++ ", ".intercalate (inspectItems items) ++ "]"
  | .object members => "Object \x7b" ++ ", ".intercalate (inspectMembers members) ++ "\x7d"

def inspectItems : List Json → List String
  | [] => []
  | j :: js => inspect j :: inspectItems js

def inspectMembers : List (String × Json) → List String
  | [] => []
  | (k, j) :: rest => (RecordTape.Text.quoted k ++ ": " ++ inspect j) :: inspectMembers rest

end

end RecordTape.Json

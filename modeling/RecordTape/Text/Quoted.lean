import RecordTape.Hex
import RecordTape.Text.Invisible
/-!
# Quoted text

A text between double quotes, with every character that would not be seen, or that would end the
quotation, written as an escape.
-/

namespace RecordTape.Text

def quotedChar (c : Char) : String :=
  match c with
  | '\x00' => "\\0"
  | '\t' => "\\t"
  | '\r' => "\\r"
  | '\n' => "\\n"
  | '"' => "\\\""
  | '\\' => "\\\\"
  | _ =>
    if c.toNat < 0x20 || c.toNat = 0x7F || isInvisible c then
      "\\u\x7b" ++ Hex.ofNat c.toNat ++ "\x7d"
    else
      String.singleton c

def quoted (s : String) : String :=
  "\"" ++ String.join (s.toList.map quotedChar) ++ "\""

/-- A list of texts between square brackets, each quoted. -/
def quotedList (ss : List String) : String :=
  "[" ++ ", ".intercalate (ss.map quoted) ++ "]"

end RecordTape.Text

import RecordTape.Number.Shortest
import RecordTape.Text.Quoted
import RecordTape.Value.Basic
import RecordTape.Value.Decimal
/-!
# Values in messages

The text by which a message shows a value: the kind of each part followed by its content. Texts are
quoted, bytes are numbers, and floating-point numbers are positional from `1e-4` up to `1e16`.
-/

namespace RecordTape.Value

/-- Floating-point numbers with small and great exponents written out, no plus among them. -/
def floatStyle : DecimalStyle := ⟨-3, 16, false⟩

def inspectFloat {f : FloatFormat} (x : Binary f) : String :=
  if x.isNaN then "NaN"
  else if x.isFinite then floatStyle.text x
  else if x.isNegative then "-inf"
  else "inf"

/-- The numbers of bytes between square brackets. -/
def inspectBytes (b : Bytes) : String :=
  "[" ++ ", ".intercalate (b.map fun n => toString n.toNat) ++ "]"

/-- A kind with its content between parentheses. -/
def labelled (kind : Kind) (content : String) : String :=
  kind.label ++ "(" ++ content ++ ")"

def inspectTable (entries : List (String × String)) : String :=
  "\x7b" ++ ", ".intercalate (entries.map fun (k, v) => Text.quoted k ++ ": " ++ v) ++ "\x7d"

/-- A decimal: its number and how many bytes hold it. -/
def inspectDecimal (b : Bytes) : String :=
  "Decimal \x7b value: " ++ toString (Decimal.toInt b) ++ ", len: " ++ toString b.length ++ " \x7d"

/-- A duration: its months, days and milliseconds, four bytes each with the least significant first.
-/
def inspectDuration (b : Bytes) : String :=
  let part (start : Nat) := toString (Bytes.ofLittleEndian ((b.drop start).take 4))
  "Duration \x7b months: Months(" ++ part 0 ++ "), days: Days(" ++ part 4 ++ "), millis: Millis(" ++
    part 8 ++ ") \x7d"

mutual

def inspect : Value → String
  | .null => Kind.null.label
  | .boolean b => labelled .boolean (toString b)
  | .int n => labelled .int (toString n.toInt)
  | .long n => labelled .long (toString n.toInt)
  | .float x => labelled .float (inspectFloat x)
  | .double x => labelled .double (inspectFloat x)
  | .bytes b => labelled .bytes (inspectBytes b)
  | .string s => labelled .string (Text.quoted s)
  | .array items => labelled .array ("[" ++ ", ".intercalate (inspectItems items) ++ "]")
  | .map entries => labelled .map (inspectTable (inspectEntries entries))
  | .union i v => labelled .union (toString i ++ ", " ++ inspect v)
  | .record fields =>
    labelled .record ("[" ++ ", ".intercalate ((inspectEntries fields).map fun (k, v) =>
      "(" ++ Text.quoted k ++ ", " ++ v ++ ")") ++ "]")
  | .enum i s => labelled .enum (toString i ++ ", " ++ Text.quoted s)
  | .fixed b => labelled .fixed (toString b.length ++ ", " ++ inspectBytes b)
  | .decimal b => labelled .decimal (inspectDecimal b)
  | .uuid u => labelled .uuid u.text
  | .intTime t n => labelled (.intTime t) (toString n.toInt)
  | .longTime t n => labelled (.longTime t) (toString n.toInt)
  | .duration b => labelled .duration (inspectDuration b)

def inspectItems : List Value → List String
  | [] => []
  | v :: rest => inspect v :: inspectItems rest

def inspectEntries : List (String × Value) → List (String × String)
  | [] => []
  | (k, v) :: rest => (k, inspect v) :: inspectEntries rest

end

end RecordTape.Value

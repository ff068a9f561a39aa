import RecordTape.Json.Token
/-!
# Well-formed JSON texts

The tree of a JSON text before its meaning is taken: numbers are literals of any size, strings are
units that may hold unpaired surrogates, and members stand in the order written. `Text.parse`
accepts exactly the grammar; sizes and depths are no concern of it.
-/

namespace RecordTape.Json

/-- A number as written. -/
structure Literal where
  negative : Bool
  /-- The digits before the point; there is one at least. -/
  whole : List Char
  /-- The digits after the point, if there is one. -/
  fraction : Option (List Char)
  exponent : Option Int

inductive Text where
  | null
  | bool (b : Bool)
  | number (n : Literal)
  | string (units : List StringUnit)
  | array (items : List Text)
  | object (members : List (List StringUnit × Text))

namespace Literal

/-- The number that decimal digits spell. -/
def ofDigits (digits : List Char) : Nat :=
  digits.foldl (fun n c => n * 10 + (c.toNat - 48)) 0

/-- An exponent part, without its letter. -/
def parseExponent (chars : List Char) : Option Int :=
  let (negative, digits) := match chars with
    | '-' :: rest => (true, rest)
    | '+' :: rest => (false, rest)
    | rest => (false, rest)
  if digits.isEmpty || !digits.all Char.isDigit then none
  else some (if negative then -(ofDigits digits : Int) else ofDigits digits)

/-- What follows the whole part: an optional fraction and an optional exponent. -/
def parseTail (negative : Bool) (whole : List Char) (rest : List Char) : Option Literal :=
  let (fraction, rest) := match rest with
    | '.' :: more => (some (more.takeWhile Char.isDigit), more.dropWhile Char.isDigit)
    | _ => (none, rest)
  if fraction = some [] then none
  else match rest with
    | [] => some ⟨negative, whole, fraction, none⟩
    | c :: more =>
      if c = 'e' || c = 'E' then
        (parseExponent more).map fun e => ⟨negative, whole, fraction, some e⟩
      else none

/-- A number word: a sign, a whole part without superfluous zeros, a fraction, an exponent. -/
def parse (word : List Char) : Option Literal :=
  let (negative, rest) := match word with
    | '-' :: rest => (true, rest)
    | rest => (false, rest)
  let whole := rest.takeWhile Char.isDigit
  match whole with
  | [] => none
  | '0' :: _ :: _ => none
  | _ => parseTail negative whole (rest.dropWhile Char.isDigit)

end Literal

namespace Text

/-- A container that is still open, its content in reverse order. -/
inductive Frame where
  | array (items : List Text)
  /-- An object whose next member has this key. -/
  | object (members : List (List StringUnit × Text)) (key : List StringUnit)

/-- What may come next. -/
inductive Expect where
  | value
  /-- After an opening bracket: a value or the closing bracket. -/
  | firstItem
  /-- After an opening brace: a key or the closing brace. -/
  | firstKey
  /-- After a comma in an object. -/
  | nextKey (members : List (List StringUnit × Text))
  | colon (members : List (List StringUnit × Text)) (key : List StringUnit)
  /-- After an item of an array. -/
  | afterItem (items : List Text)
  /-- After a member of an object. -/
  | afterMember (members : List (List StringUnit × Text))
  | done (t : Text)

/-- The open containers, innermost first, and what may come next. -/
structure Progress where
  frames : List Frame
  expect : Expect

/-- A value is complete: it goes into the innermost open container. -/
def put (frames : List Frame) (t : Text) : Progress :=
  match frames with
  | [] => ⟨[], .done t⟩
  | .array items :: outer => ⟨outer, .afterItem (t :: items)⟩
  | .object members key :: outer => ⟨outer, .afterMember ((key, t) :: members)⟩

def ofWord (word : List Char) : Option Text :=
  if word = ['n', 'u', 'l', 'l'] then some .null
  else if word = ['t', 'r', 'u', 'e'] then some (.bool true)
  else if word = ['f', 'a', 'l', 's', 'e'] then some (.bool false)
  else (Literal.parse word).map .number

/-- A token where a value may start. -/
def startValue (frames : List Frame) : Token → Option Progress
  | .openArray => some ⟨frames, .firstItem⟩
  | .openObject => some ⟨frames, .firstKey⟩
  | .text units => some (put frames (.string units))
  | .word chars => (ofWord chars).map (put frames)
  | _ => none

def step (p : Progress) (t : Token) : Option Progress :=
  match p.expect, t with
  | .value, t => startValue p.frames t
  | .firstItem, .closeArray => some (put p.frames (.array []))
  | .firstItem, t => startValue (.array [] :: p.frames) t
  | .firstKey, .closeObject => some (put p.frames (.object []))
  | .firstKey, .text key => some ⟨p.frames, .colon [] key⟩
  | .nextKey members, .text key => some ⟨p.frames, .colon members key⟩
  | .colon members key, .colon => some ⟨.object members key :: p.frames, .value⟩
  | .afterItem items, .comma => some ⟨.array items :: p.frames, .value⟩
  | .afterItem items, .closeArray => some (put p.frames (.array items.reverse))
  | .afterMember members, .comma => some ⟨p.frames, .nextKey members⟩
  | .afterMember members, .closeObject => some (put p.frames (.object members.reverse))
  | _, _ => none

def ofTokens (tokens : List Token) : Option Text := do
  match (← tokens.foldlM step ⟨[], .value⟩).expect with
  | .done t => some t
  | _ => none

def parse (s : String) : Option Text :=
  (Token.scan s.toList).bind ofTokens

end Text
end RecordTape.Json
